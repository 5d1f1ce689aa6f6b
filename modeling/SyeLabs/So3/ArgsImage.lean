import SyeLabs.So3.ArgsPage

/-!
# What the page of arguments contains

The page is described by one sequence of bytes, `image`: the count, the pointers
with their NULL, the strings. When everything fits, `preserve_args_and_env` leaves
it in the page from `malloc`.
-/

namespace SyeLabs.So3
open ByteMemory

variable (A : Arch)

def Arch.table (ps : List ℕ) : List Byte := ps.flatMap (toLE A.w)

variable {A}

@[simp] theorem table_length (ps : List ℕ) : (A.table ps).length = A.w * ps.length := by
  induction ps with
  | nil => rfl
  | cons p ps ih =>
    have hcons : A.table (p :: ps) = toLE A.w p ++ A.table ps := by simp [Arch.table]
    rw [hcons, List.length_append, toLE_length, ih, List.length_cons, Nat.mul_succ, Nat.add_comm]

theorem table_append (ps qs : List ℕ) : A.table (ps ++ qs) = A.table ps ++ A.table qs := by
  simp [Arch.table]

/-! ### Placing strings -/

/-- From `m` to `m'` the strings were written at `str`, their addresses at `slot`,
and nothing else. -/
structure Placed (A : Arch) (m m' : Memory) (slot str : ℕ) (ss : List CStr) : Prop where
  table : Holds m' slot (A.table (starts str ss))
  text : Holds m' str (strings ss)
  frame : ∀ x, (x < slot ∨ slot + A.w * ss.length ≤ x) →
    (x < str ∨ str + (strings ss).length ≤ x) → m' x = m x

theorem Placed.nil (m : Memory) (slot str : ℕ) : Placed A m m slot str [] :=
  ⟨holds_nil m slot, holds_nil m str, fun _ _ _ => rfl⟩

theorem Placed.append {m m' m'' : Memory} {slot str : ℕ} {ss ts : List CStr}
    (h : Placed A m m' slot str ss)
    (h' : Placed A m' m'' (slot + A.w * ss.length) (str + (strings ss).length) ts)
    (hroom : slot + A.w * (ss.length + ts.length) ≤ str) : Placed A m m'' slot str (ss ++ ts) := by
  rw [Nat.mul_add] at hroom
  refine ⟨?_, ?_, ?_⟩
  · rw [starts_append, table_append, holds_append, table_length, starts_length]
    refine ⟨h.table.congr fun i hi => h'.frame _ ?_ ?_, h'.table⟩
    · rw [table_length, starts_length] at hi
      omega
    · rw [table_length, starts_length] at hi
      omega
  · rw [strings_append, holds_append]
    refine ⟨h.text.congr fun i hi => h'.frame _ ?_ ?_, h'.text⟩
    · omega
    · omega
  · intro x hslot hstr
    rw [List.length_append, Nat.mul_add] at hslot
    rw [strings_append, List.length_append] at hstr
    rw [h'.frame x (by omega) (by omega), h.frame x (by omega) (by omega)]

theorem placed_single (A : Arch) (m : Memory) {slot str : ℕ} (s : CStr)
    (hroom : slot + A.w ≤ str) : Placed A m (placeString A slot str s m) slot str [s] := by
  have hlen : (strings [s]).length = s.bytes.length := by simp
  have htext : placeString A slot str s m = write (A.writePtr m slot str) str s.bytes := rfl
  refine ⟨?_, ?_, ?_⟩
  · have hslot : Holds (A.writePtr m slot str) slot (toLE A.w str) := holds_write m slot _
    rw [htext]
    simpa [Arch.table, starts] using hslot.write s.bytes (Or.inl (by rw [toLE_length]; omega))
  · rw [htext]
    simpa using holds_write (A.writePtr m slot str) str s.bytes
  · intro x hslot hstr
    rw [hlen] at hstr
    rw [List.length_singleton, Nat.mul_one] at hslot
    rw [htext, write_outside _ _ _ hstr]
    exact write_outside _ _ _ (by rw [toLE_length]; omega)

theorem placeStrings_placed (A : Arch) (args : ℕ) (ss : List CStr) (slot str : ℕ) (m : Memory)
    (hroom : slot + A.w * ss.length ≤ str)
    (hfits : str + (strings ss).length ≤ args + A.pageSize) :
    ∃ m', placeStrings A args ss slot str m = (m', some (str + (strings ss).length)) ∧
      Placed A m m' slot str ss := by
  induction ss generalizing slot str m with
  | nil => exact ⟨m, rfl, .nil m slot str⟩
  | cons s ss ih =>
    rw [List.length_cons, Nat.mul_succ] at hroom
    rw [strings_cons, List.length_append] at hfits
    have hhead : Placed A m (placeString A slot str s m) slot str [s] :=
      placed_single A m s (by omega)
    obtain ⟨m', hm', htail⟩ := ih (slot + A.w) (str + s.bytes.length) (placeString A slot str s m)
      (by omega) (by omega)
    refine ⟨m', ?_, ?_⟩
    · rw [placeStrings, if_neg (by omega), hm', strings_cons, List.length_append, Nat.add_assoc]
    · refine hhead.append ?_ ?_
      · simpa using htail
      · rw [List.length_singleton, Nat.mul_add, Nat.mul_one]
        omega

/-! ### The page before it is copied -/

/-- The strings that count as arguments. -/
def argStrings (name : CStr) (argc : ℕ) (argv : Option (List.Vector CStr argc)) : List CStr :=
  if argc = 0 then [name] else argv.elim [] List.Vector.toList

def envStrings (envp : Option (List CStr)) : List CStr := envp.getD []

/-- The bytes of a page at `base` that holds `n` arguments among the strings `ss`. -/
def Arch.image (A : Arch) (base n : ℕ) (ss : List CStr) : List Byte :=
  toLE sizeofInt n ++
    (A.table (starts (base + sizeofInt + A.w * (ss.length + 1)) ss ++ [0]) ++ strings ss)

theorem holds_image {m : Memory} {a b n : ℕ} {ss : List CStr} :
    Holds m a (A.image b n ss) ↔ Holds m a (toLE sizeofInt n) ∧
      Holds m (a + sizeofInt)
        (A.table (starts (b + sizeofInt + A.w * (ss.length + 1)) ss ++ [0])) ∧
      Holds m (a + sizeofInt + A.w * (ss.length + 1)) (strings ss) := by
  rw [Arch.image, holds_append, holds_append, toLE_length, table_length, List.length_append,
    starts_length, List.length_singleton]

def Arch.required (A : Arch) (ss : List CStr) : ℕ :=
  sizeofInt + A.w * (ss.length + 1) + (strings ss).length

/-- The count is written, the rest of the page is zero. -/
structure Blank (A : Arch) (args n : ℕ) (m m' : Memory) : Prop where
  count : Holds m' args (toLE sizeofInt n)
  zero : ∀ x, args + sizeofInt ≤ x → x < args + A.pageSize → m' x = 0#8
  outside : ∀ x, x < args ∨ args + A.pageSize ≤ x → m' x = m x

theorem blank_start (A : Arch) (args n : ℕ) (m : Memory) (hint : sizeofInt ≤ A.pageSize) :
    Blank A args n m
      (writeInt (write m args (List.replicate A.pageSize 0#8)) args n) := by
  refine ⟨holds_write _ _ _, fun x hx hx' => ?_, fun x hx => ?_⟩
  · obtain ⟨i, rfl⟩ := Nat.exists_eq_add_of_le (Nat.le_of_add_right_le hx)
    have hi : i < (List.replicate A.pageSize 0#8).length := by
      rw [List.length_replicate]
      omega
    rw [writeInt, write_outside _ _ _ (by rw [toLE_length]; omega), write_inside _ _ _ hi]
    simp
  · rw [writeInt, write_outside _ _ _ (by rw [toLE_length]; omega),
      write_outside _ _ _ (by rw [List.length_replicate]; omega)]

/- Storing NULL in a blank page changes nothing. -/
theorem Blank.writeNull {args n argsP : ℕ} {m m' : Memory} (h : Blank A args n m m')
    (hlow : args + sizeofInt ≤ argsP) (hhigh : argsP + A.w ≤ args + A.pageSize) :
    Blank A args n m (A.writePtr m' argsP 0) := by
  refine ⟨?_, fun x hx hx' => ?_, fun x hx => ?_⟩
  · exact h.count.write _ (Or.inl (by rw [toLE_length]; exact hlow))
  · by_cases hin : argsP ≤ x ∧ x < argsP + A.w
    · obtain ⟨i, rfl⟩ := Nat.exists_eq_add_of_le hin.1
      have hi : i < (toLE A.w 0).length := by
        rw [toLE_length]
        omega
      refine (write_inside m' argsP _ hi).trans ?_
      simp [toLE_zero]
    · exact (write_outside m' argsP _ (by rw [toLE_length]; omega)).trans (h.zero x hx hx')
  · exact (write_outside m' argsP _ (by rw [toLE_length]; omega)).trans (h.outside x hx)

theorem Blank.reserve {args n argsP : ℕ} {m m' : Memory} (h : Blank A args n m m')
    (envp : Option (List CStr)) (hlow : args + sizeofInt ≤ argsP)
    (hhigh : argsP + A.w ≤ args + A.pageSize) :
    ∃ m'', reserveEnv A envp argsP m' = (m'', argsP + A.w * ((envStrings envp).length + 1)) ∧
      Blank A args n m m'' := by
  cases envp with
  | none => exact ⟨_, by simp [reserveEnv, envStrings], h.writeNull hlow hhigh⟩
  | some es => exact ⟨m', rfl, h⟩

theorem placeArgs_placed (A : Arch) (args : ℕ) (name : CStr) (argc : ℕ)
    (argv : Option (List.Vector CStr argc)) (str : ℕ) (m : Memory)
    (hroom : args + sizeofInt + A.w * (argStrings name argc argv).length ≤ str)
    (hfits : str + (strings (argStrings name argc argv)).length ≤ args + A.pageSize) :
    ∃ m', placeArgs A args name argc argv str m =
        (m', some (str + (strings (argStrings name argc argv)).length)) ∧
      Placed A m m' (args + sizeofInt) str (argStrings name argc argv) := by
  by_cases hargc : argc = 0
  · subst hargc
    have hnone : argv.elim [] List.Vector.toList = [] := by
      cases argv with
      | none => rfl
      | some v => exact List.length_eq_zero_iff.mp v.toList_length
    rw [argStrings, if_pos rfl] at hroom hfits ⊢
    refine ⟨placeString A (args + sizeofInt) str name m, ?_, placed_single A m name ?_⟩
    · simp [placeArgs, hnone, placeStrings]
    · simpa using hroom
  · rw [argStrings, if_neg hargc] at hroom hfits ⊢
    have hplaced := placeStrings_placed A args _ (args + sizeofInt) str m hroom hfits
    simpa [placeArgs, hargc] using hplaced

theorem placeEnv_placed (A : Arch) (args : ℕ) (envp : Option (List CStr)) (slots str : ℕ) (m : Memory)
    (hroom : slots + A.w * (envStrings envp).length ≤ str)
    (hfits : str + (strings (envStrings envp)).length ≤ args + A.pageSize) :
    ∃ m', placeEnv A args envp slots str m =
        (m', some (str + (strings (envStrings envp)).length)) ∧
      Placed A m m' slots str (envStrings envp) := by
  cases envp with
  | none => exact ⟨m, rfl, .nil m slots str⟩
  | some es => exact placeStrings_placed A args es slots str m hroom hfits

theorem table_null (ps : List ℕ) : A.table (ps ++ [0]) = A.table ps ++ toLE A.w 0 := by
  rw [table_append]
  simp [Arch.table]

theorem holds_zeros {m : Memory} {a k : ℕ} (h : ∀ i < k, m (a + i) = 0#8) :
    Holds m a (toLE k 0) := by
  apply List.ext_getElem (by simp)
  intro i hi hi'
  rw [toLE_length] at hi'
  simp [ByteMemory.read, toLE_zero, h i hi']

theorem Blank.image {args n : ℕ} {m m' m'' : Memory} {ss : List CStr} (h : Blank A args n m m')
    (hplaced : Placed A m' m'' (args + sizeofInt)
      (args + sizeofInt + A.w * (ss.length + 1)) ss)
    (hfits : A.required ss ≤ A.pageSize) :
    Holds m'' args (A.image args n ss) ∧
      ∀ x, x < args ∨ args + A.pageSize ≤ x → m'' x = m x := by
  rw [Arch.required, Nat.mul_succ] at hfits
  have hframe := hplaced.frame
  rw [Nat.mul_succ] at hframe
  refine ⟨?_, fun x hx => ?_⟩
  · rw [holds_image, table_null, holds_append]
    refine ⟨?_, ⟨hplaced.table, ?_⟩, ?_⟩
    · refine h.count.congr fun i hi => hframe _ ?_ ?_
      · rw [toLE_length] at hi
        omega
      · rw [toLE_length] at hi
        omega
    · -- the slot after the last pointer is still zero
      rw [table_length, starts_length]
      refine holds_zeros fun i hi => ?_
      rw [hframe _ (by omega) (by omega)]
      exact h.zero _ (by omega) (by omega)
    · exact hplaced.text
  · rw [hframe x (by omega) (by omega)]
    exact h.outside x hx

theorem argStrings_length (name : CStr) {argc : ℕ} {argv : Option (List.Vector CStr argc)}
    (hargv : 0 < argc → argv.isSome) : (argStrings name argc argv).length = max argc 1 := by
  by_cases hargc : argc = 0
  · simp [argStrings, hargc]
  · obtain ⟨v, rfl⟩ := Option.isSome_iff_exists.mp (hargv (Nat.pos_of_ne_zero hargc))
    rw [argStrings, if_neg hargc, Option.elim_some, v.toList_length]
    omega

theorem readInt_of_holds {m : Memory} {a n : ℕ} (h : Holds m a (toLE sizeofInt n))
    (hn : n < 2 ^ 31) : readInt m a = n := by
  have hnum : ofLE (read m a sizeofInt) = n :=
    h.number (Nat.lt_of_lt_of_le hn (by decide))
  rw [readInt, hnum, BitVec.toInt_eq_toNat_cond, BitVec.toNat_ofNat,
    Nat.mod_eq_of_lt (by omega), if_pos (by omega)]

/- Both loops on a blank page, the second from where the first stopped. -/
theorem Blank.placeAll {args n str : ℕ} {m m₀ : Memory} (h : Blank A args n m m₀) (name : CStr)
    (argc : ℕ) (argv : Option (List.Vector CStr argc)) (envp : Option (List CStr))
    (hlen : (argStrings name argc argv).length = n) (hn : n < 2 ^ 31)
    (hstr : str = args + sizeofInt + A.w * n + A.w * ((envStrings envp).length + 1))
    (hfits : A.required (argStrings name argc argv ++ envStrings envp) ≤ A.pageSize) :
    ∃ m₁ m₂ s₁ s₂, placeArgs A args name argc argv str m₀ = (m₁, some s₁) ∧
      readInt m₁ args = n ∧
      placeEnv A args envp (args + sizeofInt + A.w * n) s₁ m₁ = (m₂, some s₂) ∧
      Placed A m₀ m₂ (args + sizeofInt) str (argStrings name argc argv ++ envStrings envp) := by
  rw [Arch.required, List.length_append, hlen, strings_append, List.length_append,
    Nat.mul_succ, Nat.mul_add] at hfits
  rw [Nat.mul_succ] at hstr
  obtain ⟨m₁, hm₁, hplaced₁⟩ := placeArgs_placed A args name argc argv str m₀
    (by rw [hlen]; omega) (by omega)
  obtain ⟨m₂, hm₂, hplaced₂⟩ := placeEnv_placed A args envp (args + sizeofInt + A.w * n)
    (str + (strings (argStrings name argc argv)).length) m₁ (by omega) (by omega)
  refine ⟨m₁, m₂, _, _, hm₁, ?_, hm₂, hplaced₁.append (by rwa [hlen]) ?_⟩
  · refine readInt_of_holds (h.count.congr fun i hi => hplaced₁.frame _ ?_ ?_) hn
    · rw [toLE_length] at hi
      omega
    · rw [toLE_length] at hi
      omega
  · rw [hlen, Nat.mul_add]
    omega

theorem argv_given {argc : ℕ} {argv : Option (List.Vector CStr argc)}
    (hargv : 0 < argc → argv.isSome) : ¬ (argc > 0 ∧ argv.isNone = true) := fun ⟨hpos, hnone⟩ => by
  simp [Option.isNone_iff_eq_none.mp hnone] at hargv
  omega

theorem count_eq (argc : ℕ) : (if argc = 0 then 1 else argc) = max argc 1 := by
  split_ifs <;> omega

theorem slots_end (A : Arch) (args argc : ℕ) :
    (if argc = 0 then args + sizeofInt + A.w else args + sizeofInt + A.w * argc) =
      args + sizeofInt + A.w * max argc 1 := by
  split_ifs with hargc
  · simp [hargc]
  · rw [Nat.max_eq_left (by omega)]

/-- When everything fits, the page holds the image and nothing else changed. -/
theorem preserve_image (A : Arch) (args : ℕ) (name : CStr) (argc : ℕ)
    (argv : Option (List.Vector CStr argc)) (envp : Option (List CStr)) (m : Memory)
    (hargv : 0 < argc → argv.isSome)
    (hfits : A.required (argStrings name argc argv ++ envStrings envp) ≤ A.pageSize) :
    ∃ m', preserveArgsAndEnv A args name argc argv envp m = (m', .ok args) ∧
      Holds m' args (A.image args (max argc 1) (argStrings name argc argv ++ envStrings envp)) ∧
      ∀ x, x < args ∨ args + A.pageSize ≤ x → m' x = m x := by
  have hlen := argStrings_length name hargv
  have hroom := hfits
  rw [Arch.required, List.length_append, hlen, Nat.mul_succ, Nat.mul_add] at hroom
  have hsmall : max argc 1 < 2 ^ 31 := by
    have hle : max argc 1 ≤ A.w * max argc 1 := Nat.le_mul_of_pos_left _ A.w_pos
    have hpage := A.pageSize_lt
    omega
  obtain ⟨m₀, hm₀, hblank⟩ := (blank_start A args (max argc 1) m (by omega)).reserve envp
    (Nat.le_add_right (args + sizeofInt) (A.w * max argc 1)) (by omega)
  obtain ⟨m₁, m₂, s₁, s₂, hm₁, hint, hm₂, hplaced⟩ :=
    hblank.placeAll name argc argv envp hlen hsmall rfl hfits
  have hstr : args + sizeofInt + A.w * max argc 1 + A.w * ((envStrings envp).length + 1) =
      args + sizeofInt +
        A.w * ((argStrings name argc argv ++ envStrings envp).length + 1) := by
    simp only [List.length_append, hlen, Nat.mul_add]
    omega
  rw [hstr] at hplaced
  refine ⟨m₂, ?_, hblank.image hplaced hfits⟩
  rw [preserveArgsAndEnv, if_neg (argv_given hargv)]
  simp only [count_eq, slots_end, hm₀, hm₁, hint, Int.toNat_natCast, hm₂]

/-! ### When it does not fit -/

theorem placeStrings_result (A : Arch) (args : ℕ) (ss : List CStr) (slot str : ℕ) (m : Memory) :
    (placeStrings A args ss slot str m).2 =
      if ss ≠ [] ∧ args + A.pageSize < str + (strings ss).length then none
      else some (str + (strings ss).length) := by
  induction ss generalizing slot str m with
  | nil => simp [placeStrings]
  | cons s ss ih =>
    rw [placeStrings, strings_cons, List.length_append]
    by_cases hfull : str + s.bytes.length - args > A.pageSize
    · rw [if_pos hfull, if_pos ⟨List.cons_ne_nil s ss, by omega⟩]
    · rw [if_neg hfull, ih]
      cases ss with
      | nil => simp [show ¬ args + A.pageSize < str + s.bytes.length by omega]
      | cons t ts => simp [Nat.add_assoc]

theorem reserveEnv_snd (A : Arch) (envp : Option (List CStr)) (argsP : ℕ) (m : Memory) :
    (reserveEnv A envp argsP m).2 = argsP + A.w * ((envStrings envp).length + 1) := by
  cases envp with
  | none => simp [reserveEnv, envStrings]
  | some es => rfl

theorem placeArgs_result (A : Arch) (args : ℕ) (name : CStr) {argc : ℕ}
    {argv : Option (List.Vector CStr argc)} (hargv : 0 < argc → argv.isSome) (str : ℕ)
    (m : Memory) :
    (placeArgs A args name argc argv str m).2 =
      if argc ≠ 0 ∧ args + A.pageSize < str + (strings (argStrings name argc argv)).length then none
      else some (str + (strings (argStrings name argc argv)).length) := by
  by_cases hargc : argc = 0
  · subst hargc
    have hnone : argv.elim [] List.Vector.toList = [] := by
      cases argv with
      | none => rfl
      | some v => exact List.length_eq_zero_iff.mp v.toList_length
    simp [placeArgs, argStrings, hnone, placeStrings]
  · obtain ⟨v, rfl⟩ := Option.isSome_iff_exists.mp (hargv (Nat.pos_of_ne_zero hargc))
    have hne : v.toList ≠ [] := fun hnil => hargc (by rw [← v.toList_length, hnil]; rfl)
    simp [placeArgs, argStrings, hargc, placeStrings_result, hne]

theorem placeEnv_result (A : Arch) (args : ℕ) (envp : Option (List CStr)) (slots str : ℕ)
    (m : Memory) :
    (placeEnv A args envp slots str m).2 =
      if envStrings envp ≠ [] ∧ args + A.pageSize < str + (strings (envStrings envp)).length then none
      else some (str + (strings (envStrings envp)).length) := by
  cases envp with
  | none => simp [placeEnv, envStrings]
  | some es => exact placeStrings_result A args es slots str m

/-- The size that is checked: nothing is when only the name of the process is placed. -/
def Arch.Fits (A : Arch) (argc : ℕ) (as es : List CStr) : Prop :=
  (argc = 0 ∧ es = []) ∨ A.required (as ++ es) ≤ A.pageSize

/- The size, from the end of the tables on. -/
theorem required_eq {args : ℕ} {name : CStr} {argc : ℕ} {argv : Option (List.Vector CStr argc)}
    {envp : Option (List CStr)} (hargv : 0 < argc → argv.isSome) :
    args + A.required (argStrings name argc argv ++ envStrings envp) =
      args + sizeofInt + A.w * max argc 1 + A.w * ((envStrings envp).length + 1) +
        (strings (argStrings name argc argv)).length + (strings (envStrings envp)).length := by
  have hslots : A.w * (max argc 1 + (envStrings envp).length + 1) =
      A.w * max argc 1 + A.w * ((envStrings envp).length + 1) := by
    rw [Nat.add_assoc, Nat.mul_add]
  rw [Arch.required, List.length_append, argStrings_length name hargv, hslots, strings_append,
    List.length_append]
  omega

theorem preserve_error_iff (A : Arch) (args : ℕ) (name : CStr) (argc : ℕ)
    (argv : Option (List.Vector CStr argc)) (envp : Option (List CStr)) (m : Memory)
    (hargv : 0 < argc → argv.isSome) :
    (∃ e, (preserveArgsAndEnv A args name argc argv envp m).2 = .error e) ↔
      ¬ A.Fits argc (argStrings name argc argv) (envStrings envp) := by
  rw [preserveArgsAndEnv, if_neg (argv_given hargv)]
  simp only [count_eq, slots_end]
  generalize writeInt _ args (max argc 1) = m₀
  rcases hreserve : reserveEnv A envp (args + sizeofInt + A.w * max argc 1) m₀ with ⟨m₁, str⟩
  have hstr := reserveEnv_snd A envp (args + sizeofInt + A.w * max argc 1) m₀
  rw [hreserve] at hstr
  rcases hplaced : placeArgs A args name argc argv str m₁ with ⟨m₂, s₁⟩
  have hs₁ := placeArgs_result A args name hargv str m₁
  rw [hplaced] at hs₁
  simp only at hstr
  have hneed : args + A.required (argStrings name argc argv ++ envStrings envp) =
      str + (strings (argStrings name argc argv)).length +
        (strings (envStrings envp)).length := by
    rw [hstr]
    exact required_eq hargv
  have hempty : envStrings envp = [] → (strings (envStrings envp)).length = 0 := fun hnil => by
    rw [hnil, strings_nil, List.length_nil]
  by_cases hargs : argc ≠ 0 ∧ args + A.pageSize < str + (strings (argStrings name argc argv)).length
  · rw [if_pos hargs] at hs₁
    obtain rfl : s₁ = none := hs₁
    refine ⟨fun _ hfits => ?_, fun _ => ⟨_, rfl⟩⟩
    rcases hfits with ⟨hargc, _⟩ | hfits
    · exact hargs.1 hargc
    · omega
  · rw [if_neg hargs] at hs₁
    obtain rfl : s₁ = some (str + (strings (argStrings name argc argv)).length) := hs₁
    simp only
    rcases hplaced : placeEnv A args envp (args + sizeofInt + A.w * (readInt m₂ args).toNat)
      (str + (strings (argStrings name argc argv)).length) m₂ with ⟨m₃, s₂⟩
    have hs₂ := placeEnv_result A args envp (args + sizeofInt + A.w * (readInt m₂ args).toNat)
      (str + (strings (argStrings name argc argv)).length) m₂
    rw [hplaced] at hs₂
    by_cases henv : envStrings envp ≠ [] ∧ args + A.pageSize <
        str + (strings (argStrings name argc argv)).length + (strings (envStrings envp)).length
    · rw [if_pos henv] at hs₂
      obtain rfl : s₂ = none := hs₂
      refine ⟨fun _ hfits => ?_, fun _ => ⟨_, rfl⟩⟩
      rcases hfits with ⟨_, hnil⟩ | hfits
      · exact henv.1 hnil
      · omega
    · rw [if_neg henv] at hs₂
      obtain rfl : s₂ = some (str + (strings (argStrings name argc argv)).length +
        (strings (envStrings envp)).length) := hs₂
      refine ⟨fun ⟨e, he⟩ => (nomatch he), fun hfits => absurd ?_ hfits⟩
      by_cases hnil : envStrings envp = []
      · by_cases hargc : argc = 0
        · exact Or.inl ⟨hargc, hnil⟩
        · have hzero := hempty hnil
          refine Or.inr ?_
          by_contra hbig
          exact hargs ⟨hargc, by omega⟩
      · refine Or.inr ?_
        by_contra hbig
        exact henv ⟨hnil, by omega⟩

end SyeLabs.So3
