import Mathlib.Data.List.Basic
import Mathlib.Algebra.Group.Nat.Defs

/-!
# Byte-addressed memory

A memory gives each address a byte. `Holds m a bs` says that the bytes `bs` stand
at `a`; a write establishes it there and keeps it everywhere the write does not
reach. Numbers are stored in little-endian order, in a fixed number of bytes.
-/

namespace SyeLabs.ByteMemory

abbrev Byte := BitVec 8
abbrev Memory := ℕ → Byte

def read (m : Memory) (a n : ℕ) : List Byte := (List.range n).map fun i => m (a + i)

def write (m : Memory) (a : ℕ) (bs : List Byte) : Memory := fun x =>
  if x < a then m x else (bs[x - a]?).getD (m x)

def copy (m : Memory) (dst src n : ℕ) : Memory := write m dst (read m src n)

def Holds (m : Memory) (a : ℕ) (bs : List Byte) : Prop := read m a bs.length = bs

variable {m m' : Memory} {a b : ℕ} {xs ys : List Byte}

@[simp] theorem read_length (m : Memory) (a n : ℕ) : (read m a n).length = n := by simp [read]

theorem read_add (m : Memory) (a n k : ℕ) : read m a (n + k) = read m a n ++ read m (a + n) k := by
  simp [read, List.range_add, Nat.add_assoc]

theorem read_congr {n : ℕ} (h : ∀ i < n, m' (a + i) = m (a + i)) : read m' a n = read m a n :=
  List.map_congr_left fun i hi => h i (List.mem_range.mp hi)

theorem write_inside (m : Memory) (a : ℕ) (bs : List Byte) {i : ℕ} (hi : i < bs.length) :
    write m a bs (a + i) = bs[i] := by
  rw [write, if_neg (by omega)]
  simp [hi]

theorem write_outside (m : Memory) (a : ℕ) (bs : List Byte) {x : ℕ}
    (h : x < a ∨ a + bs.length ≤ x) : write m a bs x = m x := by
  unfold write
  split_ifs with hx
  · rfl
  · have hge : bs.length ≤ x - a := by omega
    simp [hge]

theorem write_append (m : Memory) (a : ℕ) (bs cs : List Byte) :
    write (write m a bs) (a + bs.length) cs = write m a (bs ++ cs) := by
  funext x
  unfold write
  split_ifs with hnext hx hx
  · rfl
  · have hin : x - a < bs.length := by omega
    rw [List.getElem?_append_left hin]
  · omega
  · have hout : bs.length ≤ x - a := by omega
    rw [List.getElem?_append_right hout, List.getElem?_eq_none hout, Nat.sub_sub]
    rfl

theorem write_nil (m : Memory) (a : ℕ) : write m a [] = m := by
  funext x
  unfold write
  split_ifs <;> rfl

/-! ### Regions -/

theorem Holds.congr (h : Holds m a xs) (hm : ∀ i < xs.length, m' (a + i) = m (a + i)) :
    Holds m' a xs := (read_congr hm).trans h

theorem holds_nil (m : Memory) (a : ℕ) : Holds m a [] := rfl

theorem holds_append : Holds m a (xs ++ ys) ↔ Holds m a xs ∧ Holds m (a + xs.length) ys := by
  rw [Holds, List.length_append, read_add]
  constructor
  · intro h
    exact List.append_inj h (by simp)
  · rintro ⟨hx, hy⟩
    rw [hx, hy]

theorem holds_write (m : Memory) (a : ℕ) (bs : List Byte) : Holds (write m a bs) a bs := by
  apply List.ext_getElem (by simp)
  intro i hi hi'
  simp only [read, List.getElem_map, List.getElem_range]
  exact write_inside m a bs hi'

theorem Holds.write (h : Holds m a xs) (bs : List Byte)
    (hdisj : a + xs.length ≤ b ∨ b + bs.length ≤ a) : Holds (write m b bs) a xs :=
  h.congr fun i hi => write_outside m b bs (by omega)

theorem Holds.copy {src n : ℕ} (h : Holds m src xs) (hn : xs.length ≤ n) (dst : ℕ) :
    Holds (copy m dst src n) dst xs := by
  obtain ⟨k, rfl⟩ := Nat.exists_eq_add_of_le hn
  have hall := holds_write m dst (read m src (xs.length + k))
  rw [read_add, h] at hall
  rw [ByteMemory.copy, read_add, h]
  exact (holds_append.mp hall).1

/-! ### Copies one after the other -/

/-- The `n` bytes at `a` and the `k` bytes at `b` have none in common. -/
def Apart (a n b k : ℕ) : Prop := a + n ≤ b ∨ b + k ≤ a

theorem Apart.mono {n k l : ℕ} (h : Apart a n b k) (hl : l ≤ k) : Apart a n b l := by
  unfold Apart at h ⊢
  omega

theorem read_copy_apart {dst src n k : ℕ} (h : Apart dst n a k) :
    read (copy m dst src n) a k = read m a k := by
  refine read_congr fun i hi => write_outside m dst _ ?_
  rw [read_length]
  unfold Apart at h
  omega

section Copies

variable {α : Type*} (dst src len : α → ℕ)

def copies (m : Memory) (cs : List α) : Memory :=
  cs.foldl (fun m c => copy m (dst c) (src c) (len c)) m

theorem copies_apart {cs : List α} {n : ℕ} (m : Memory)
    (h : ∀ c ∈ cs, Apart (dst c) (len c) a n) :
    read (copies dst src len m cs) a n = read m a n := by
  induction cs generalizing m with
  | nil => rfl
  | cons c cs ih =>
    calc read (copies dst src len m (c :: cs)) a n
        = read (copy m (dst c) (src c) (len c)) a n :=
          ih _ fun d hd => h d (List.mem_cons_of_mem c hd)
      _ = read m a n := read_copy_apart (h c List.mem_cons_self)

/-- When no source is written, and no target twice with different bytes, each target holds at
the end what its source held at the start. -/
theorem holds_copies {cs : List α} {c : α} (m : Memory) (hc : c ∈ cs)
    (hsrc : ∀ c ∈ cs, ∀ d ∈ cs, Apart (dst d) (len d) (src c) (len c))
    (hdst : ∀ c ∈ cs, ∀ d ∈ cs, d = c ∨ Apart (dst d) (len d) (dst c) (len c)) :
    Holds (copies dst src len m cs) (dst c) (read m (src c) (len c)) := by
  induction cs generalizing m with
  | nil => exact absurd hc List.not_mem_nil
  | cons d cs ih =>
    by_cases hlater : c ∈ cs
    · have hrest := ih (copy m (dst d) (src d) (len d)) hlater
        (fun c hc e he => hsrc c (List.mem_cons_of_mem d hc) e (List.mem_cons_of_mem d he))
        (fun c hc e he => hdst c (List.mem_cons_of_mem d hc) e (List.mem_cons_of_mem d he))
      rwa [read_copy_apart (hsrc c hc d List.mem_cons_self)] at hrest
    · obtain rfl : c = d := (List.mem_cons.mp hc).resolve_right hlater
      have hnow : Holds (copy m (dst c) (src c) (len c)) (dst c) (read m (src c) (len c)) :=
        holds_write m (dst c) _
      -- the copies after the last of this one go elsewhere
      have hkept := copies_apart dst src len (copy m (dst c) (src c) (len c)) (a := dst c)
        (n := len c) fun e he => (hdst c hc e (List.mem_cons_of_mem c he)).resolve_left
          fun heq => hlater (heq ▸ he)
      rw [Holds, read_length] at hnow ⊢
      exact hkept.trans hnow

end Copies

/-! ### Numbers -/

def toLE : ℕ → ℕ → List Byte
  | 0, _ => []
  | k + 1, v => BitVec.ofNat 8 v :: toLE k (v / 256)

def ofLE : List Byte → ℕ
  | [] => 0
  | b :: bs => b.toNat + 256 * ofLE bs

@[simp] theorem toLE_length (k v : ℕ) : (toLE k v).length = k := by
  induction k generalizing v with
  | zero => rfl
  | succ k ih => simp [toLE, ih]

theorem ofLE_toLE (k v : ℕ) : ofLE (toLE k v) = v % 256 ^ k := by
  induction k generalizing v with
  | zero => simp [toLE, ofLE, Nat.mod_one]
  | succ k ih =>
    calc ofLE (toLE (k + 1) v) = v % 256 + 256 * ofLE (toLE k (v / 256)) := by
          simp [toLE, ofLE]
      _ = v % 256 + 256 * (v / 256 % 256 ^ k) := by rw [ih]
      _ = v % (256 * 256 ^ k) := (Nat.mod_mul).symm
      _ = v % 256 ^ (k + 1) := by rw [Nat.pow_succ']

theorem toLE_zero (k : ℕ) : toLE k 0 = List.replicate k 0 := by
  induction k with
  | zero => rfl
  | succ k ih => simp [toLE, ih, List.replicate_succ]

theorem Holds.number {k v : ℕ} (h : Holds m a (toLE k v)) (hv : v < 256 ^ k) :
    ofLE (read m a k) = v := by
  rw [Holds, toLE_length] at h
  rw [h, ofLE_toLE, Nat.mod_eq_of_lt hv]

/-! ### Strings -/

/-- A C string: bytes other than zero. In memory a zero byte ends it. -/
def CStr := {s : List Byte // 0#8 ∉ s}

instance : DecidableEq CStr := inferInstanceAs (DecidableEq {s : List Byte // 0#8 ∉ s})

/- What a buffer reads as: up to the first zero byte. -/
def CStr.ofBytes (bs : List Byte) : CStr :=
  ⟨bs.takeWhile (· ≠ 0#8), fun h => by simpa using List.all_eq_true.mp List.all_takeWhile _ h⟩

def CStr.bytes (s : CStr) : List Byte := s.val ++ [0#8]

def strcpy (m : Memory) (dst : ℕ) (s : CStr) : Memory := write m dst s.bytes

theorem CStr.bytes_length (s : CStr) : s.bytes.length = s.val.length + 1 := by
  simp [CStr.bytes]

theorem CStr.ofBytes_bytes (s : CStr) (rest : List Byte) : CStr.ofBytes (s.bytes ++ rest) = s := by
  apply Subtype.ext
  simp only [CStr.ofBytes, CStr.bytes, List.append_assoc]
  rw [List.takeWhile_append_of_pos]
  · simp
  · intro b hb
    have hne : b ≠ 0#8 := fun h => s.property (h ▸ hb)
    simpa using hne

/-- A string reads as itself from any buffer that holds it with its zero. -/
theorem Holds.reads {s : CStr} {n : ℕ} (h : Holds m a s.bytes) (hn : s.bytes.length ≤ n) :
    CStr.ofBytes (read m a n) = s := by
  obtain ⟨k, rfl⟩ := Nat.exists_eq_add_of_le hn
  rw [read_add, h, CStr.ofBytes_bytes]

/-- Strings one after the other, and where each starts when the first is at `a`. -/
def strings (ss : List CStr) : List Byte := ss.flatMap CStr.bytes

def starts : ℕ → List CStr → List ℕ
  | _, [] => []
  | a, s :: ss => a :: starts (a + s.bytes.length) ss

@[simp] theorem strings_nil : strings [] = [] := rfl

@[simp] theorem strings_cons (s : CStr) (ss : List CStr) :
    strings (s :: ss) = s.bytes ++ strings ss := by
  simp [strings]

theorem strings_append (ss ts : List CStr) : strings (ss ++ ts) = strings ss ++ strings ts := by
  simp [strings]

@[simp] theorem starts_length (a : ℕ) (ss : List CStr) : (starts a ss).length = ss.length := by
  induction ss generalizing a with
  | nil => rfl
  | cons s ss ih => simp [starts, ih]

theorem starts_append (a : ℕ) (ss ts : List CStr) :
    starts a (ss ++ ts) = starts a ss ++ starts (a + (strings ss).length) ts := by
  induction ss generalizing a with
  | nil => simp [starts]
  | cons s ss ih => simp [starts, ih, Nat.add_assoc]

/- The string number `i` of an area of strings, and its place in it. -/
theorem holds_strings {ss : List CStr} (h : Holds m a (strings ss)) {i : ℕ} (hi : i < ss.length) :
    ∃ p, (starts a ss)[i]? = some p ∧ a ≤ p ∧ p + ss[i].bytes.length ≤ a + (strings ss).length ∧
      Holds m p ss[i].bytes := by
  induction ss generalizing a i with
  | nil => simp at hi
  | cons s ss ih =>
    rw [strings_cons, holds_append] at h
    cases i with
    | zero => exact ⟨a, rfl, Nat.le_refl a, by simp, h.1⟩
    | succ i =>
      obtain ⟨p, hp, hle, hend, hp'⟩ := ih h.2 (Nat.lt_of_succ_lt_succ hi)
      refine ⟨p, hp, by omega, ?_, hp'⟩
      simp only [List.getElem_cons_succ, strings_cons, List.length_append]
      omega

theorem starts_shift (b a : ℕ) (ss : List CStr) :
    starts (b + a) ss = (starts a ss).map (b + ·) := by
  induction ss generalizing a with
  | nil => rfl
  | cons s ss ih => simp [starts, Nat.add_assoc, ih]

theorem start_lt {ss : List CStr} {p : ℕ} (h : p ∈ starts a ss) :
    a ≤ p ∧ p < a + (strings ss).length := by
  induction ss generalizing a with
  | nil => simp [starts] at h
  | cons s ss ih =>
    have hpos : 0 < s.bytes.length := by simp [CStr.bytes]
    rw [strings_cons, List.length_append]
    rcases List.mem_cons.mp h with rfl | h
    · omega
    · have hp := ih h
      omega

theorem le_start {ss : List CStr} {i p : ℕ} (h : (starts a ss)[i]? = some p) : a ≤ p := by
  induction ss generalizing a i with
  | nil => simp [starts] at h
  | cons s ss ih =>
    cases i with
    | zero => exact Nat.le_of_eq (Option.some.inj h)
    | succ i =>
      have hp := ih h
      omega

/- A string ends before the ones after it start. -/
theorem starts_separate {ss : List CStr} {i j p q : ℕ} {s : CStr} (hij : i < j)
    (hp : (starts a ss)[i]? = some p) (hq : (starts a ss)[j]? = some q) (hs : ss[i]? = some s) :
    p + s.bytes.length ≤ q := by
  induction ss generalizing a i j with
  | nil => simp at hs
  | cons t ss ih =>
    cases j with
    | zero => omega
    | succ j =>
      cases i with
      | zero =>
        obtain rfl := Option.some.inj hp
        obtain rfl := Option.some.inj hs
        exact le_start hq
      | succ i => exact ih (Nat.lt_of_succ_lt_succ hij) hp hq hs

end SyeLabs.ByteMemory
