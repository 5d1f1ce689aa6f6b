import SyeLabs.Shell.Arguments
import Mathlib.Tactic.Choose

/-!
# The name of the executable (`lab5/sh.c` and `lab7/sh.c`)

The name is built in a buffer of `FILE_MAX` bytes, by functions that do not know how
long the suffix is that comes next.
-/

namespace SyeLabs.Shell

open ByteMemory (CStr Memory Holds read write strcpy)
open Words (before behind)

variable {m : Memory} {stack : Stack} {s : CStr} {reach : ℕ}
  {ws : List (List ByteMemory.Byte)}

/-! ### The string functions -/

theorem holds_zero {bs : List ByteMemory.Byte} {i : ℕ} (h : Holds m 0 bs) (hi : i < bs.length) :
    m i = bs[i] := by
  have hread : (read m 0 bs.length)[i]? = some (m i) := by
    simp [ByteMemory.read, hi]
  rw [h, List.getElem?_eq_getElem hi] at hread
  exact (Option.some.inj hread).symm

theorem strcat_holds (h : Holds m 0 s.bytes) (hreach : s.val.length < reach)
    (suffix : List ByteMemory.Byte) :
    strcat m reach suffix = .ok (write m s.val.length (suffix ++ [0#8])) := by
  have hlen : s.bytes.length = s.val.length + 1 := CStr.bytes_length s
  have hfind : (List.range reach).find? (fun n => m n = 0#8) = some s.val.length := by
    rw [List.find?_range_eq_some]
    refine ⟨?_, List.mem_range.mpr hreach, ?_⟩
    · rw [holds_zero h (by omega)]
      simp [CStr.bytes]
    · intro j hj
      have hjb : j < s.bytes.length := by omega
      rw [holds_zero h hjb]
      have hget : s.bytes[j] = s.val[j] := by
        simp [CStr.bytes, List.getElem_append_left hj]
      rw [hget]
      have hne : s.val[j] ≠ 0#8 := fun hzero => s.property (List.mem_of_getElem hzero)
      simpa using hne
  simp only [strcat, hfind]

/-- The buffer holds the word and the suffix, and nothing behind it has changed. -/
theorem strcat_appends (h : Holds m 0 s.bytes) (suffix : List ByteMemory.Byte) :
    Holds (write m s.val.length (suffix ++ [0#8])) 0 (s.val ++ suffix ++ [0#8]) := by
  rw [CStr.bytes, ByteMemory.holds_append] at h
  rw [List.append_assoc, ByteMemory.holds_append, Nat.zero_add]
  exact ⟨h.1.write _ (.inl (Nat.le_of_eq (Nat.zero_add _))), ByteMemory.holds_write _ _ _⟩

/-- What `execv` reads after the suffix has been put behind a string. -/
theorem strcat_path (h : Holds m 0 s.bytes) (hreach : s.val.length < reach) :
    ∃ filename, strcat m reach elf = .ok filename ∧
      filename = write m s.val.length (elf ++ [0#8]) ∧
      (pathOf filename reach).val = s.val ++ elf := by
  refine ⟨_, strcat_holds h hreach elf, rfl, ?_⟩
  have hzero : 0#8 ∉ s.val ++ elf := by
    rw [List.mem_append, not_or]
    exact ⟨s.property, by decide⟩
  let path : CStr := ⟨s.val ++ elf, hzero⟩
  have hpath : pathOf (write m s.val.length (elf ++ [0#8])) reach = path := by
    apply Holds.reads (strcat_appends h elf)
    change (s.val ++ elf ++ [0#8]).length ≤ _
    simp only [List.length_append, List.length_singleton]
    omega
  rw [hpath]

theorem strncpy_holds (filename : Memory) (hs : s.val.length < FILE_MAX) :
    Holds (strncpy filename s FILE_MAX) 0 s.bytes := by
  obtain ⟨k, hk⟩ := Nat.exists_eq_add_of_lt hs
  have hpad : FILE_MAX - s.val.length = k + 1 := by omega
  have hall := ByteMemory.holds_write filename 0
    (s.val.take FILE_MAX ++ List.replicate (FILE_MAX - s.val.length) 0#8)
  rw [List.take_of_length_le (Nat.le_of_lt hs), hpad, List.replicate_succ,
    List.append_cons, ByteMemory.holds_append] at hall
  rw [strncpy, List.take_of_length_le (Nat.le_of_lt hs), hpad, List.replicate_succ,
    List.append_cons]
  exact hall.1

/-! ### The three call sites -/

/-- The word is there, the buffer holds it with the suffix and a zero byte, which is what
`execv` reads, and no byte behind the buffer has changed. -/
def NameBuilt (stack : Stack) (name : Option CStr) (r : Except Fault Memory) : Prop :=
  ∃ word filename, name = some word ∧ r = .ok filename ∧
    Holds filename 0 (word.val ++ elf ++ [0#8]) ∧
    (pathOf filename stack.reach).val = word.val ++ elf ∧
    ∀ x, FILE_MAX ≤ x → filename x = stack.filename x

theorem nameBuilt_of_short {filename : Memory} (h : Holds filename 0 s.bytes)
    (hshort : s.val.length + elf.length < FILE_MAX)
    (hkept : ∀ x, FILE_MAX ≤ x → filename x = stack.filename x) :
    NameBuilt stack (some s) (strcat filename stack.reach elf) := by
  have hreach := stack.reach_le
  obtain ⟨filename', hstrcat, rfl, hpath⟩ := strcat_path h (show _ < stack.reach by omega)
  refine ⟨s, _, rfl, hstrcat, strcat_appends h elf, hpath, fun x hx => ?_⟩
  rw [ByteMemory.write_outside, hkept x hx]
  rw [List.length_append, List.length_singleton]
  omega

/- Where nothing behind the buffer changes, there is room for the suffix. -/
theorem short_of_nameBuilt {name : Option CStr} {r : Except Fault Memory}
    (hstack : ∀ x, stack.filename x = 1#8) (h : NameBuilt stack name r) :
    ∃ word, name = some word ∧ word.val.length + elf.length < FILE_MAX := by
  obtain ⟨word, filename, hname, _, hstored, _, hkept⟩ := h
  refine ⟨word, hname, Nat.lt_of_not_le fun hlong => ?_⟩
  have hlen : (word.val ++ elf).length = word.val.length + elf.length := List.length_append
  have hzero : filename (word.val.length + elf.length) = 0#8 := by
    rw [holds_zero hstored (by rw [List.length_append, hlen]; exact Nat.lt_succ_self _)]
    rw [List.getElem_append_right (Nat.le_of_eq hlen)]
    simp [hlen]
  rw [hkept _ hlong, hstack] at hzero
  cases hzero

def filledStack : Stack := {zeroStack with filename := fun _ => 1#8}

namespace Lab7

/-- A child builds its name from the first entry of its vector. -/
def ChildNameBuilt (pick : Scan → Option CStr) (m : Memory) (stack : Stack) : Prop :=
  ∃ s s', scanTokens m ⟨stack.argv, stack.argv2, false, 0, 0⟩ = .ok s ∧ s.terminate = .ok s' ∧
    NameBuilt stack (pick s') (buildName stack (pick s'))

def FirstNameBuilt : Memory → Stack → Prop := ChildNameBuilt fun s => s.argv 0

def SecondNameBuilt : Memory → Stack → Prop := ChildNameBuilt fun s => s.argv2 0

theorem buildName_short (stack : Stack) (hs : s.val.length + elf.length < FILE_MAX) :
    NameBuilt stack (some s) (buildName stack (some s)) := by
  have hlt : s.val.length < FILE_MAX := by omega
  apply nameBuilt_of_short (strncpy_holds stack.filename hlt) hs
  intro x hx
  apply ByteMemory.write_outside
  rw [List.length_append, List.length_take, List.length_replicate]
  omega

/-- A name is built right, whatever the stack holds, when the word is there and short. -/
theorem nameBuilt_iff {name : Stack → Option CStr} {word : Option (List ByteMemory.Byte)}
    (hname : ∀ stack, (name stack).map chars = word) :
    (∀ stack, NameBuilt stack (name stack) (buildName stack (name stack))) ↔
      ∃ w, word = some w ∧ w.length + elf.length < FILE_MAX := by
  constructor
  · intro h
    obtain ⟨w, hw, hshort⟩ := short_of_nameBuilt (fun _ => rfl) (h filledStack)
    exact ⟨w.val, by rw [← hname filledStack, hw]; rfl, hshort⟩
  · rintro ⟨w, rfl, hshort⟩ stack
    obtain ⟨t, ht, rfl⟩ := Option.map_eq_some_iff.mp (hname stack)
    rw [ht]
    exact buildName_short stack hshort

end Lab7

namespace Lab5

theorem buildName_short (stack : Stack) (hs : s.val.length + elf.length < FILE_MAX) :
    NameBuilt stack (some s) (buildName stack s) := by
  apply nameBuilt_of_short (ByteMemory.holds_write _ _ _) hs
  intro x hx
  apply ByteMemory.write_outside
  rw [CStr.bytes_length]
  omega

theorem nameBuilt_iff : (∀ stack, NameBuilt stack (some s) (buildName stack s)) ↔
    s.val.length + elf.length < FILE_MAX := by
  constructor
  · intro h
    obtain ⟨w, hw, hshort⟩ := short_of_nameBuilt (fun _ => rfl) (h filledStack)
    cases hw
    exact hshort
  · exact fun hs stack => buildName_short stack hs

end Lab5

theorem Lab7.childNameBuilt_iff {pick : Lab7.Scan → Option CStr}
    {word : Option (List ByteMemory.Byte)} (hm : Holding m ws) (hne : [] ∉ ws)
    (hlen : ws.length < TOKEN_NR)
    (hpick : ∀ s, Lab7.Vectors ws s → (pick s).map chars = word) :
    (∀ stack, Lab7.ChildNameBuilt pick m stack) ↔
      ∃ w, word = some w ∧ w.length + elf.length < FILE_MAX := by
  have hscan := fun stack => Lab7.scan_vectors stack hm hne hlen
  choose s s' hs hend hv using hscan
  rw [← Lab7.nameBuilt_iff fun stack => hpick _ (hv stack)]
  constructor
  · intro h stack
    obtain ⟨t, t', ht, htend, hbuilt⟩ := h stack
    obtain rfl := Except.ok.inj ((hs stack).symm.trans ht)
    obtain rfl := Except.ok.inj ((hend stack).symm.trans htend)
    exact hbuilt
  · exact fun h stack => ⟨s stack, s' stack, hs stack, hend stack, h stack⟩

theorem Lab7.firstNameBuilt_iff (hm : Holding m ws) (hne : [] ∉ ws)
    (hlen : ws.length < TOKEN_NR) : (∀ stack, Lab7.FirstNameBuilt m stack) ↔
      ∃ w, (before bar ws).head? = some w ∧ w.length + elf.length < FILE_MAX :=
  Lab7.childNameBuilt_iff hm hne hlen fun _ hs => hs.left.name

theorem Lab7.secondNameBuilt_iff (hm : Holding m ws) (hne : [] ∉ ws)
    (hlen : ws.length < TOKEN_NR) (hmem : bar ∈ ws) :
    (∀ stack, Lab7.SecondNameBuilt m stack) ↔
      ∃ w, (behind bar ws).head? = some w ∧ w.length + elf.length < FILE_MAX :=
  Lab7.childNameBuilt_iff hm hne hlen fun _ hs => (hs.right hmem).name

/-- At each of the three calls of `execv` the name is built right, whatever the stack holds,
exactly when the word of that call is there and leaves room for the suffix. -/
theorem executable_name_iff (hm : Holding m ws) (hne : [] ∉ ws) (hlen : ws.length < TOKEN_NR) :
    ((∀ stack, NameBuilt stack (some (token m 0)) (Lab5.buildName stack (token m 0))) ↔
      (ws.getD 0 []).length + elf.length < FILE_MAX) ∧
    ((∀ stack, Lab7.FirstNameBuilt m stack) ↔
      ∃ w, (before bar ws).head? = some w ∧ w.length + elf.length < FILE_MAX) ∧
    (bar ∈ ws → ((∀ stack, Lab7.SecondNameBuilt m stack) ↔
      ∃ w, (behind bar ws).head? = some w ∧ w.length + elf.length < FILE_MAX)) := by
  refine ⟨?_, Lab7.firstNameBuilt_iff hm hne hlen, Lab7.secondNameBuilt_iff hm hne hlen⟩
  rw [Lab5.nameBuilt_iff, hm 0 (by decide)]

theorem executable_name_of_pipe : ∃ m, Holding m (lineWords Lab7.onePipe) ∧
    ((∀ stack, NameBuilt stack (some (token m 0)) (Lab5.buildName stack (token m 0))) ↔
      ((lineWords Lab7.onePipe).getD 0 []).length + elf.length < FILE_MAX) ∧
    ((∀ stack, Lab7.FirstNameBuilt m stack) ↔
      ∃ w, (before bar (lineWords Lab7.onePipe)).head? = some w ∧
        w.length + elf.length < FILE_MAX) ∧
    (bar ∈ lineWords Lab7.onePipe → ((∀ stack, Lab7.SecondNameBuilt m stack) ↔
      ∃ w, (behind bar (lineWords Lab7.onePipe)).head? = some w ∧
        w.length + elf.length < FILE_MAX)) := by
  obtain ⟨m, hm⟩ := exists_holding rfl (show Lab7.onePipe.val.length < TOKEN_MAX by decide)
    (by decide)
  exact ⟨m, hm, executable_name_iff hm (by decide) (by decide)⟩

/- A word of 26 characters, `| a` and `a |`. -/
def longName : CStr := ⟨List.replicate 26 97#8, by decide⟩
def barFirst : CStr := ⟨[124#8, 32#8, 97#8], by decide⟩
def barLast : CStr := ⟨[97#8, 32#8, 124#8], by decide⟩

theorem executable_name_fails :
    (∃ m, Holding m (lineWords longName) ∧
      ¬ ∀ stack, NameBuilt stack (some (token m 0)) (Lab5.buildName stack (token m 0))) ∧
    (∃ m, Holding m (lineWords barFirst) ∧ ¬ ∀ stack, Lab7.FirstNameBuilt m stack) ∧
    (∃ m, Holding m (lineWords barLast) ∧ ¬ ∀ stack, Lab7.SecondNameBuilt m stack) := by
  refine ⟨?_, ?_, ?_⟩
  · obtain ⟨m, hm⟩ := exists_holding rfl (show longName.val.length < TOKEN_MAX by decide)
      (by decide)
    refine ⟨m, hm, ?_⟩
    rw [Lab5.nameBuilt_iff, hm 0 (by decide)]
    decide
  · obtain ⟨m, hm⟩ := exists_holding rfl (show barFirst.val.length < TOKEN_MAX by decide)
      (by decide)
    refine ⟨m, hm, ?_⟩
    rw [Lab7.firstNameBuilt_iff hm (by decide) (by decide)]
    rintro ⟨w, hw, _⟩
    have hnone : (before bar (lineWords barFirst)).head? = none := by decide
    rw [hnone] at hw
    cases hw
  · obtain ⟨m, hm⟩ := exists_holding rfl (show barLast.val.length < TOKEN_MAX by decide)
      (by decide)
    refine ⟨m, hm, ?_⟩
    rw [Lab7.secondNameBuilt_iff hm (by decide) (by decide) (by decide)]
    rintro ⟨w, hw, _⟩
    have hnone : (behind bar (lineWords barLast)).head? = none := by decide
    rw [hnone] at hw
    cases hw

end SyeLabs.Shell
