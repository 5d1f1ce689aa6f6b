import SyeLabs.So3.ArgsImage

/-!
# What `preserve_args_and_env` writes outside of its page

The size is checked behind each copy, so the string that does not fit has been written
when `ENOMEM` is returned.
-/

namespace SyeLabs.So3
open ByteMemory

variable (A : Arch) (args : ℕ) (name : CStr) (argc : ℕ) (argv : Option (List.Vector CStr argc))
  (envp : Option (List CStr))

/-- From any memory, only the page changes, and `ENOMEM` is for what is larger than a page. -/
structure PageSafe : Prop where
  within : ∀ m x, x < args ∨ args + A.pageSize ≤ x →
    (preserveArgsAndEnv A args name argc argv envp m).1 x = m x
  refused : argc > 0 ∧ argv.isNone → ∀ m,
    preserveArgsAndEnv A args name argc argv envp m = (m, .error .einval)
  enomem : ¬ (argc > 0 ∧ argv.isNone) → ∀ m,
    ((preserveArgsAndEnv A args name argc argv envp m).2 = .error .enomem ↔
      A.pageSize < A.required (argStrings name argc argv ++ envStrings envp))

variable {A args name argc argv envp}

/- The zero byte of a string. -/
theorem placeString_end (slot str : ℕ) (s : CStr) (m : Memory) :
    placeString A slot str s m (str + s.val.length) = 0#8 := by
  have hlast : s.val.length < s.bytes.length := by
    rw [CStr.bytes_length]
    exact Nat.lt_succ_self _
  rw [placeString, strcpy, write_inside _ _ _ hlast]
  simp [CStr.bytes]

/-- The first string that does not fit is the last thing that is written. -/
theorem placeStrings_overrun {ss : List CStr} {slot str : ℕ} (m : Memory) (hne : ss ≠ [])
    (hargs : args ≤ str) (hfull : args + A.pageSize < str + (strings ss).length) :
    ∃ x, args + A.pageSize ≤ x ∧ (placeStrings A args ss slot str m).1 x = 0#8 := by
  induction ss generalizing slot str m with
  | nil => exact absurd rfl hne
  | cons s ss ih =>
    rw [strings_cons, List.length_append] at hfull
    have hlen := s.bytes_length
    rw [placeStrings]
    split_ifs with hcross
    · exact ⟨str + s.val.length, by omega, placeString_end slot str s m⟩
    · apply ih
      · intro hnil
        rw [hnil, strings_nil, List.length_nil] at hfull
        omega
      · omega
      · omega

theorem placeArgs_overrun {str : ℕ} (m : Memory) (hargv : 0 < argc → argv.isSome)
    (hargs : args ≤ str)
    (hfull : args + A.pageSize < str + (strings (argStrings name argc argv)).length) :
    ∃ x, args + A.pageSize ≤ x ∧ (placeArgs A args name argc argv str m).1 x = 0#8 := by
  by_cases hargc : argc = 0
  · subst hargc
    have hnone : argv.elim [] List.Vector.toList = [] := by
      cases argv with
      | none => rfl
      | some v => exact List.length_eq_zero_iff.mp v.toList_length
    have hlen := name.bytes_length
    rw [argStrings, if_pos rfl, strings_cons, strings_nil, List.append_nil] at hfull
    refine ⟨str + name.val.length, by omega, ?_⟩
    simp only [placeArgs, hnone, placeStrings, if_true]
    exact placeString_end (args + sizeofInt) str name m
  · have hlist : argStrings name argc argv = argv.elim [] List.Vector.toList := if_neg hargc
    have hpos : 0 < (argStrings name argc argv).length := by
      rw [argStrings_length name hargv]
      exact Nat.lt_of_lt_of_le Nat.one_pos (Nat.le_max_right argc 1)
    simp only [placeArgs, if_neg hargc, ← hlist]
    exact placeStrings_overrun m (List.ne_nil_of_length_pos hpos) hargs hfull

theorem placeEnv_nil {slots str : ℕ} (m : Memory) (hnil : envStrings envp = []) :
    placeEnv A args envp slots str m = (m, some str) := by
  cases envp with
  | none => rfl
  | some es =>
    rw [envStrings, Option.getD_some] at hnil
    rw [hnil]
    rfl

theorem placeEnv_overrun {slots str : ℕ} (m : Memory) (hne : envStrings envp ≠ [])
    (hargs : args ≤ str)
    (hfull : args + A.pageSize < str + (strings (envStrings envp)).length) :
    ∃ x, args + A.pageSize ≤ x ∧ (placeEnv A args envp slots str m).1 x = 0#8 := by
  cases envp with
  | none => exact absurd rfl hne
  | some es => exact placeStrings_overrun m hne hargs hfull

/-- What does not fit is written nevertheless. -/
theorem preserve_overrun (m : Memory) (hargv : 0 < argc → argv.isSome)
    (hfull : A.pageSize < A.required (argStrings name argc argv ++ envStrings envp)) :
    ∃ x, args + A.pageSize ≤ x ∧ (preserveArgsAndEnv A args name argc argv envp m).1 x = 0#8 := by
  rw [preserveArgsAndEnv, if_neg (argv_given hargv)]
  simp only [count_eq, slots_end]
  generalize writeInt _ args (max argc 1) = m₀
  rcases hreserve : reserveEnv A envp (args + sizeofInt + A.w * max argc 1) m₀ with ⟨m₁, str⟩
  have hstr := reserveEnv_snd A envp (args + sizeofInt + A.w * max argc 1) m₀
  rw [hreserve] at hstr
  simp only at hstr
  have hneed : args + A.required (argStrings name argc argv ++ envStrings envp) =
      str + (strings (argStrings name argc argv)).length +
        (strings (envStrings envp)).length := by
    rw [hstr]
    exact required_eq hargv
  have hover := @placeArgs_overrun A args name argc argv str m₁ hargv (by omega)
  have hsnd := placeArgs_result A args name hargv str m₁
  rcases hplaced : placeArgs A args name argc argv str m₁ with ⟨m₂, s₁⟩
  rw [hplaced] at hover hsnd
  simp only at hover hsnd
  by_cases hnil : envStrings envp = []
  · -- the strings in front are too long by themselves
    have hempty : (strings (envStrings envp)).length = 0 := by
      rw [hnil, strings_nil, List.length_nil]
    obtain ⟨x, hx, hzero⟩ := hover (by omega)
    cases s₁ with
    | none => exact ⟨x, hx, hzero⟩
    | some s₁ =>
      simp only [placeEnv_nil m₂ hnil]
      exact ⟨x, hx, hzero⟩
  · cases s₁ with
    | none =>
      split_ifs at hsnd with hcross
      exact hover hcross.2
    | some s₁ =>
      split_ifs at hsnd with hcross
      obtain rfl := Option.some.inj hsnd
      have henv := @placeEnv_overrun A args envp
        (args + sizeofInt + A.w * (readInt m₂ args).toNat)
        (str + (strings (argStrings name argc argv)).length) m₂ hnil (by omega) (by omega)
      simp only
      rcases hplaced : placeEnv A args envp (args + sizeofInt + A.w * (readInt m₂ args).toNat)
        (str + (strings (argStrings name argc argv)).length) m₂ with ⟨m₃, s₂⟩
      rw [hplaced] at henv
      cases s₂ with
      | none => exact henv
      | some s₂ => exact henv

/-- The page is not overrun exactly when the arguments are refused or everything fits. -/
theorem pageSafe_iff (A : Arch) (args : ℕ) (name : CStr) (argc : ℕ)
    (argv : Option (List.Vector CStr argc)) (envp : Option (List CStr)) :
    PageSafe A args name argc argv envp ↔ argc > 0 ∧ argv.isNone ∨
      A.required (argStrings name argc argv ++ envStrings envp) ≤ A.pageSize := by
  by_cases hrefused : argc > 0 ∧ argv.isNone
  · have hsame : ∀ m, preserveArgsAndEnv A args name argc argv envp m = (m, .error .einval) :=
      fun m => if_pos hrefused
    refine iff_of_true ⟨fun m x _ => ?_, fun _ => hsame, fun h => absurd hrefused h⟩
      (.inl hrefused)
    rw [hsame]
  · have hargv : 0 < argc → argv.isSome := by
      intro hpos
      cases argv with
      | none => exact absurd ⟨hpos, rfl⟩ hrefused
      | some v => rfl
    constructor
    · intro h
      refine .inr (Nat.le_of_not_lt fun hfull => ?_)
      -- on a memory without a zero
      obtain ⟨x, hx, hzero⟩ := preserve_overrun (fun _ => 1#8) hargv hfull
      rw [h.within _ x (.inr hx)] at hzero
      cases hzero
    · intro h
      have hfits := h.resolve_left hrefused
      refine ⟨fun m x hx => ?_, fun h => absurd h hrefused, fun _ m => ?_⟩
      · obtain ⟨m', hm', _, hkept⟩ := preserve_image A args name argc argv envp m hargv hfits
        rw [hm']
        exact hkept x hx
      · obtain ⟨m', hm', _, _⟩ := preserve_image A args name argc argv envp m hargv hfits
        rw [hm']
        exact iff_of_false (fun h => nomatch h) (Nat.not_lt.mpr hfits)

/- One argument of 4096 characters, and a page of 4096 bytes. -/
def longArg : CStr := ⟨List.replicate 4096 97#8, fun h => by cases List.eq_of_mem_replicate h⟩

theorem long_argument_overruns :
    ¬ PageSafe ⟨4, 4096, by decide, by decide⟩ 65536 longArg 1 (some ⟨[longArg], rfl⟩) none := by
  intro h
  have hlen : (strings [longArg]).length = 4097 := by
    rw [strings_cons, strings_nil, List.append_nil, CStr.bytes_length, longArg,
      List.length_replicate]
  have hstrings : argStrings longArg 1 (some ⟨[longArg], rfl⟩) ++ envStrings none = [longArg] := rfl
  obtain ⟨x, hx, hzero⟩ := @preserve_overrun ⟨4, 4096, by decide, by decide⟩ 65536 longArg 1
    (some ⟨[longArg], rfl⟩) none (fun _ => 1#8) (fun _ => rfl) (by
      rw [hstrings, Arch.required, hlen]
      decide)
  rw [h.within _ x (.inr hx)] at hzero
  cases hzero

end SyeLabs.So3
