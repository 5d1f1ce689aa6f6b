import SyeLabs.So3.ArgsImage

/-!
# The arguments of `exec` at their final place

`post_setup_image` turns the image of the page at `args_env` into the image of the
page at `args_base`: only the pointers move. Decoding that page gives the arguments
and the environment back.
-/

namespace SyeLabs.So3
open ByteMemory

variable {A : Arch}

/-! ### Moving the pointers -/

theorem table_cons (p : ℕ) (ps : List ℕ) : A.table (p :: ps) = toLE A.w p ++ A.table ps := by
  simp [Arch.table]

/-- From `m` to `m'` the pointers `ps` at `slot` were replaced by their images under `f`. -/
structure Moved (A : Arch) (f : ℕ → ℕ) (m m' : Memory) (slot : ℕ) (ps : List ℕ) : Prop where
  table : Holds m' slot (A.table (ps.map f))
  frame : ∀ x, x < slot ∨ slot + A.w * ps.length ≤ x → m' x = m x

theorem Moved.cons {f : ℕ → ℕ} {m m' : Memory} {slot p : ℕ} {ps : List ℕ}
    (h : Moved A f (A.writePtr m slot (f p)) m' (slot + A.w) ps) : Moved A f m m' slot (p :: ps) := by
  refine ⟨?_, fun x hx => ?_⟩
  · rw [List.map_cons, table_cons, holds_append, toLE_length]
    refine ⟨?_, h.table⟩
    have hslot : Holds (A.writePtr m slot (f p)) slot (toLE A.w (f p)) := holds_write m slot _
    refine hslot.congr fun i hi => h.frame _ (Or.inl ?_)
    rw [toLE_length] at hi
    omega
  · rw [List.length_cons, Nat.mul_succ] at hx
    rw [h.frame x (by omega)]
    exact write_outside m slot _ (by rw [toLE_length]; omega)

variable {argsEnv base : ℕ}

theorem relocSlot_eq {m : Memory} {slot p : ℕ} (h : Holds m slot (toLE A.w p)) (hp : p < A.addrs) :
    relocSlot A argsEnv base slot m = A.writePtr m slot (relocated A argsEnv base p) := by
  rw [relocSlot, Arch.readPtr, h.number hp]

variable (argsEnv base) in
theorem relocArgs_moved (ps : List ℕ) (slot : ℕ) (m : Memory) (h : Holds m slot (A.table ps))
    (hps : ∀ p ∈ ps, p < A.addrs) :
    Moved A (relocated A argsEnv base) m (relocArgs A argsEnv base ps.length slot m) slot ps := by
  induction ps generalizing slot m with
  | nil => exact ⟨holds_nil m slot, fun _ _ => rfl⟩
  | cons p ps ih =>
    rw [table_cons, holds_append, toLE_length] at h
    rw [List.length_cons, relocArgs, relocSlot_eq h.1 (hps p (List.mem_cons_self ..))]
    refine .cons (ih (slot + A.w) _ ?_ fun q hq => hps q (List.mem_cons_of_mem p hq))
    exact h.2.write _ (Or.inr (Nat.le_of_eq (by rw [toLE_length])))

variable (argsEnv base) in
theorem relocEnv_moved (ps : List ℕ) (slot : ℕ) (m : Memory)
    (h : Holds m slot (A.table (ps ++ [0]))) (hps : ∀ p ∈ ps, 0 < p ∧ p < A.addrs) {fuel : ℕ}
    (hfuel : ps.length < fuel) :
    ∃ m', relocEnv A argsEnv base fuel slot m = some m' ∧
      Moved A (relocated A argsEnv base) m m' slot ps := by
  obtain ⟨fuel, rfl⟩ := Nat.exists_eq_add_one_of_ne_zero (Nat.ne_zero_of_lt hfuel)
  induction ps generalizing slot m fuel with
  | nil =>
    have hnull : A.readPtr m slot = 0 := by
      have hslot : Holds m slot (toLE A.w 0) := by simpa [Arch.table] using h
      exact hslot.number (Nat.pow_pos (by decide))
    exact ⟨m, by rw [relocEnv, if_pos hnull], holds_nil m slot, fun _ _ => rfl⟩
  | cons p ps ih =>
    rw [List.cons_append, table_cons, holds_append, toLE_length] at h
    obtain ⟨hpos, hlt⟩ := hps p (List.mem_cons_self ..)
    have hread : A.readPtr m slot = p := h.1.number hlt
    rw [List.length_cons] at hfuel
    obtain ⟨fuel, rfl⟩ := Nat.exists_eq_add_one_of_ne_zero (Nat.ne_zero_of_lt (by omega : 0 < fuel))
    obtain ⟨m', hm', hmoved⟩ := ih (slot + A.w) (A.writePtr m slot (relocated A argsEnv base p))
      (h.2.write _ (Or.inr (Nat.le_of_eq (by rw [toLE_length]))))
      (fun q hq => hps q (List.mem_cons_of_mem p hq)) fuel (by omega)
    refine ⟨m', ?_, .cons hmoved⟩
    rw [relocEnv, if_neg (by omega), relocSlot_eq h.1 hlt, hm']

theorem Moved.append {f : ℕ → ℕ} {m m' m'' : Memory} {slot : ℕ} {ps qs : List ℕ}
    (h : Moved A f m m' slot ps) (h' : Moved A f m' m'' (slot + A.w * ps.length) qs) :
    Moved A f m m'' slot (ps ++ qs) := by
  refine ⟨?_, fun x hx => ?_⟩
  · rw [List.map_append, table_append, holds_append, table_length, List.length_map]
    refine ⟨h.table.congr fun i hi => h'.frame _ (Or.inl ?_), h'.table⟩
    rw [table_length, List.length_map] at hi
    omega
  · rw [List.length_append, Nat.mul_add] at hx
    rw [h'.frame x (by omega), h.frame x (by omega)]

theorem relocated_add {args k : ℕ} (hargs : args + k < A.addrs) (hbase : base + k < A.addrs) :
    relocated A args base (args + k) = base + k := by
  have hmod : args % A.addrs = args := Nat.mod_eq_of_lt (by omega)
  have hsum : args + k + (A.addrs - args) + base = base + k + A.addrs := by omega
  rw [relocated, hmod, hsum, Nat.add_mod_right, Nat.mod_eq_of_lt hbase]

/- The addresses of the strings in one page become those in the other. -/
theorem starts_relocated {args k : ℕ} (ss : List CStr)
    (hargs : args + (k + (strings ss).length) ≤ A.addrs)
    (hbase : base + (k + (strings ss).length) ≤ A.addrs) :
    (starts (args + k) ss).map (relocated A args base) = starts (base + k) ss := by
  rw [starts_shift, starts_shift, List.map_map]
  refine List.map_congr_left fun p hp => ?_
  have hlt := start_lt hp
  exact relocated_add (by omega) (by omega)

theorem image_length (A : Arch) (at' n : ℕ) (ss : List CStr) :
    (A.image at' n ss).length = A.required ss := by
  simp only [Arch.image, Arch.required, List.length_append, table_length, toLE_length,
    starts_length, List.length_singleton]
  omega

/- The two loops move the `n` pointers of the arguments, then the others up to NULL. -/
theorem reloc_moved (args base : ℕ) {n fuel slot : ℕ} {ps : List ℕ} {m : Memory}
    (h : Holds m slot (A.table (ps ++ [0]))) (hps : ∀ p ∈ ps, 0 < p ∧ p < A.addrs)
    (hn : n ≤ ps.length) (hfuel : ps.length - n < fuel) :
    ∃ m', relocEnv A args base fuel (slot + n * A.w) (relocArgs A args base n slot m) = some m' ∧
      Moved A (relocated A args base) m m' slot ps := by
  have hlen : (ps.take n).length = n := List.length_take_of_le hn
  have hsplit : ps = ps.take n ++ ps.drop n := (List.take_append_drop n ps).symm
  rw [hsplit, List.append_assoc, table_append, holds_append, table_length, hlen] at h
  have hargs : Moved A (relocated A args base) m (relocArgs A args base n slot m) slot
      (ps.take n) := by
    have hmoved := relocArgs_moved args base (ps.take n) slot m h.1
      fun p hp => (hps p (List.mem_of_mem_take hp)).2
    rwa [hlen] at hmoved
  have hrest : Holds (relocArgs A args base n slot m) (slot + A.w * n)
      (A.table (ps.drop n ++ [0])) := by
    refine h.2.congr fun i _ => hargs.frame _ (Or.inr ?_)
    rw [hlen]
    omega
  obtain ⟨m', hm', hmoved⟩ := relocEnv_moved args base (ps.drop n) _ _ hrest
    (fun p hp => hps p (List.mem_of_mem_drop hp)) (by rwa [List.length_drop])
  refine ⟨m', by rw [Nat.mul_comm]; exact hm', ?_⟩
  rw [hsplit]
  exact hargs.append (by rwa [hlen])

/- The image arrives, and nothing else changes. -/
theorem post_image_frame {args n fuel : ℕ} {ss : List CStr} {m : Memory}
    (h : Holds m args (A.image args n ss)) (hfits : A.required ss ≤ A.pageSize)
    (hn : n ≤ ss.length) (hargs : args + A.pageSize ≤ A.addrs)
    (hbase : base + A.pageSize ≤ A.addrs) (hfuel : ss.length - n < fuel) :
    ∃ m', postSetupImage A fuel args base m = some m' ∧ Holds m' base (A.image base n ss) ∧
      ∀ x, x < base ∨ base + A.pageSize ≤ x → m' x = m x := by
  have hcopy : Holds (copy m base args A.pageSize) base (A.image args n ss) :=
    h.copy (by rw [image_length]; exact hfits) base
  have hwide : n ≤ A.w * (ss.length + 1) :=
    Nat.le_trans (Nat.le_succ_of_le hn) (Nat.le_mul_of_pos_left _ A.w_pos)
  have hpage := A.pageSize_lt
  have hpos : 0 < sizeofInt := by decide
  unfold Arch.required at hfits
  have hmap : (starts (args + sizeofInt + A.w * (ss.length + 1)) ss).map
      (relocated A args base) = starts (base + sizeofInt + A.w * (ss.length + 1)) ss := by
    rw [Nat.add_assoc, Nat.add_assoc base]
    exact starts_relocated ss (by omega) (by omega)
  obtain ⟨hcount, htable, hstrings⟩ := holds_image.mp hcopy
  have hint : readInt (copy m base args A.pageSize) base = n := readInt_of_holds hcount (by omega)
  obtain ⟨m', hm', hmoved⟩ := reloc_moved args base (n := n) htable
    (fun p hp => by have hlt := start_lt hp; omega) (by rwa [starts_length])
    (by rwa [starts_length])
  have hframe := hmoved.frame
  rw [starts_length] at hframe
  refine ⟨m', by simp only [postSetupImage, hint, Int.toNat_natCast, hm'], ?_, fun x hx => ?_⟩
  · rw [holds_image, table_null, holds_append]
    have hnull := htable
    rw [table_null, holds_append, table_length, starts_length] at hnull
    refine ⟨hcount.congr fun i hi => hframe _ (Or.inl ?_), ⟨?_, ?_⟩, ?_⟩
    · rw [toLE_length] at hi
      omega
    · rw [← hmap]
      exact hmoved.table
    · rw [table_length, starts_length]
      exact hnull.2.congr fun i _ => hframe _ (Or.inr (by omega))
    · rw [Nat.mul_succ] at hstrings ⊢
      exact hstrings.congr fun i _ => hframe _ (Or.inr (by omega))
  · rw [Nat.mul_succ] at hfits
    rw [hframe x (by omega)]
    exact write_outside m base _ (by rwa [read_length])

theorem post_image {args n fuel : ℕ} {ss : List CStr} {m : Memory}
    (h : Holds m args (A.image args n ss)) (hfits : A.required ss ≤ A.pageSize)
    (hn : n ≤ ss.length) (hargs : args + A.pageSize ≤ A.addrs)
    (hbase : base + A.pageSize ≤ A.addrs) (hfuel : ss.length - n < fuel) :
    ∃ m', postSetupImage A fuel args base m = some m' ∧ Holds m' base (A.image base n ss) := by
  obtain ⟨m', hm', himage, _⟩ := post_image_frame h hfits hn hargs hbase hfuel
  exact ⟨m', hm', himage⟩

/-! ### Decoding the page -/

/-- `__args[i]` in a page at `base`, counted from the first argument. -/
def Arch.pointer (A : Arch) (m : Memory) (base i : ℕ) : ℕ :=
  A.readPtr m (base + sizeofInt + A.w * i)

/-- In the page at `base` the pointer `p` leads to the string `s` and the NUL after it. -/
structure Designates (A : Arch) (m : Memory) (base p : ℕ) (s : CStr) : Prop where
  low : base ≤ p
  high : p + s.bytes.length ≤ base + A.pageSize
  text : Holds m p s.bytes

/-- The page at `base` reads as the arguments `as` and the environment `es`. -/
structure Decodes (A : Arch) (m : Memory) (base : ℕ) (as es : List CStr) : Prop where
  count : readInt m base = as.length
  arg : ∀ i (hi : i < as.length), Designates A m base (A.pointer m base i) as[i]
  env : ∀ i (hi : i < es.length), Designates A m base (A.pointer m base (as.length + i)) es[i]
  null : A.pointer m base (as.length + es.length) = 0
  apart : ∀ i j (_ : i < j) (hj : j < (as ++ es).length),
    A.pointer m base i + ((as ++ es)[i]).bytes.length ≤ A.pointer m base j

theorem readPtr_of_table {m : Memory} {slot i p : ℕ} {ps : List ℕ} (h : Holds m slot (A.table ps))
    (hi : ps[i]? = some p) (hp : p < A.addrs) : A.readPtr m (slot + A.w * i) = p := by
  induction ps generalizing slot i with
  | nil => simp at hi
  | cons q ps ih =>
    rw [table_cons, holds_append, toLE_length] at h
    cases i with
    | zero =>
      obtain rfl := Option.some.inj hi
      exact h.1.number hp
    | succ i =>
      have hrest := ih h.2 hi
      rwa [Nat.add_assoc, Nat.add_comm A.w, ← Nat.mul_succ] at hrest

theorem decodes_image {m : Memory} {base : ℕ} {as es : List CStr}
    (h : Holds m base (A.image base as.length (as ++ es)))
    (hfits : A.required (as ++ es) ≤ A.pageSize) (hbase : base + A.pageSize ≤ A.addrs) :
    Decodes A m base as es := by
  unfold Arch.required at hfits
  have hpage := A.pageSize_lt
  have hwide : as.length ≤ A.w * ((as ++ es).length + 1) := by
    refine Nat.le_trans ?_ (Nat.le_mul_of_pos_left _ A.w_pos)
    rw [List.length_append]
    omega
  obtain ⟨hcount, htable, htext⟩ := holds_image.mp h
  have hpointer : ∀ i p,
      (starts (base + sizeofInt + A.w * ((as ++ es).length + 1)) (as ++ es))[i]? = some p →
      A.pointer m base i = p := fun i p hp => by
    have hlt := start_lt (List.mem_of_getElem? hp)
    have hi : i < (as ++ es).length := by
      rw [← starts_length (base + sizeofInt + A.w * ((as ++ es).length + 1)) (as ++ es)]
      exact (List.getElem?_eq_some_iff.mp hp).1
    refine readPtr_of_table htable ?_ (by omega)
    rw [List.getElem?_append_left (by rwa [starts_length])]
    exact hp
  have hstring : ∀ i (hi : i < (as ++ es).length),
      Designates A m base (A.pointer m base i) (as ++ es)[i] := fun i hi => by
    obtain ⟨p, hp, hlow, hhigh, hbytes⟩ := holds_strings htext hi
    rw [hpointer i p hp]
    exact ⟨by omega, by omega, hbytes⟩
  refine ⟨readInt_of_holds hcount (by omega), fun i hi => ?_, fun i hi => ?_, ?_,
    fun i j hij hj => ?_⟩
  · have hd := hstring i (by rw [List.length_append]; omega)
    rwa [List.getElem_append_left hi] at hd
  · have hd := hstring (as.length + i) (by rw [List.length_append]; omega)
    simpa using hd
  · refine readPtr_of_table htable ?_ (Nat.pow_pos (by decide))
    have hlast : (starts (base + sizeofInt + A.w * ((as ++ es).length + 1)) (as ++ es)).length =
        as.length + es.length := by rw [starts_length, List.length_append]
    rw [← hlast]
    exact List.getElem?_concat_length
  · have hi : i < (as ++ es).length := Nat.lt_trans hij hj
    obtain ⟨p, hp, _⟩ := holds_strings htext hi
    obtain ⟨q, hq, _⟩ := holds_strings htext hj
    rw [hpointer i p hp, hpointer j q hq]
    exact starts_separate hij hp hq (List.getElem?_eq_getElem hi)

/- Between the two calls anything may change but the page from `malloc`. -/
theorem exec_args_survive (A : Arch) (args base : ℕ) (name : CStr) (argc : ℕ)
    (argv : Option (List.Vector CStr argc)) (envp : Option (List CStr)) (m : Memory) (fuel : ℕ)
    (hargv : 0 < argc → argv.isSome)
    (hfits : sizeofInt + A.w * max argc 1 + A.w * ((envStrings envp).length + 1) +
      ((strings (argStrings name argc argv)).length + (strings (envStrings envp)).length) ≤
        A.pageSize)
    (hargs : args + A.pageSize ≤ A.addrs) (hbase : base + A.pageSize ≤ A.addrs)
    (hfuel : (envStrings envp).length < fuel) :
    ∃ m₁, preserveArgsAndEnv A args name argc argv envp m = (m₁, .ok args) ∧
      ∀ m₁', (∀ x, args ≤ x → x < args + A.pageSize → m₁' x = m₁ x) →
        ∃ m₂, postSetupImage A fuel args base m₁' = some m₂ ∧ readInt m₂ base = max argc 1 ∧
          Decodes A m₂ base (argStrings name argc argv) (envStrings envp) := by
  have hlen := argStrings_length name hargv
  have hreq : A.required (argStrings name argc argv ++ envStrings envp) ≤ A.pageSize := by
    have hslots : A.w * (max argc 1 + (envStrings envp).length + 1) =
        A.w * max argc 1 + A.w * ((envStrings envp).length + 1) := by
      rw [Nat.add_assoc, Nat.mul_add]
    rw [Arch.required, List.length_append, hlen, hslots, strings_append, List.length_append]
    omega
  obtain ⟨m₁, hm₁, himage, _⟩ := preserve_image A args name argc argv envp m hargv hreq
  refine ⟨m₁, hm₁, fun m₁' hsame => ?_⟩
  have himage' : Holds m₁' args
      (A.image args (max argc 1) (argStrings name argc argv ++ envStrings envp)) := by
    refine himage.congr fun i hi => hsame _ (Nat.le_add_right _ _) ?_
    rw [image_length] at hi
    omega
  have hrest : (argStrings name argc argv ++ envStrings envp).length - max argc 1 < fuel := by
    rw [List.length_append, hlen]
    omega
  obtain ⟨m₂, hm₂, hfinal⟩ := post_image himage' hreq (by rw [List.length_append, hlen]; omega)
    hargs hbase hrest
  rw [← hlen] at hfinal
  have hdecodes := decodes_image hfinal hreq hbase
  exact ⟨m₂, hm₂, by rw [hdecodes.count, hlen], hdecodes⟩

theorem exec_args_survive_small :
    let A : Arch := ⟨4, 4096, by decide, by decide⟩
    let name : CStr := ⟨[115#8, 104#8], by decide⟩
    let argv : Option (List.Vector CStr 1) := some ⟨[⟨[97#8], by decide⟩], rfl⟩
    let envp : Option (List CStr) := some [⟨[98#8, 61#8, 99#8], by decide⟩]
    ∃ m₁, preserveArgsAndEnv A 65536 name 1 argv envp (fun _ => 7#8) = (m₁, .ok 65536) ∧
      ∀ m₁', (∀ x, 65536 ≤ x → x < 65536 + 4096 → m₁' x = m₁ x) →
        ∃ m₂, postSetupImage A 2 65536 131072 m₁' = some m₂ ∧ readInt m₂ 131072 = (1 : ℕ) ∧
          Decodes A m₂ 131072 (argStrings name 1 argv) (envStrings envp) :=
  exec_args_survive ⟨4, 4096, by decide, by decide⟩ 65536 131072 _ 1 _ _ _ 2 (fun _ => rfl)
    (by decide) (by decide) (by decide) (by decide)

end SyeLabs.So3
