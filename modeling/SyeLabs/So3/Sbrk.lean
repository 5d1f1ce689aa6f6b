import SyeLabs.So3.AddressSpace

/-!
# The program break (`lab9/process.c`, lines 1029-1084)

All pages of the heap are mapped by `exec`; `do_sbrk` moves the break between its ends.
The size after the call is a signed word that may wrap.
-/

namespace SyeLabs.So3

/-- What `set_errno` is called with where `do_sbrk` returns -1. -/
inductive SbrkErrno where
  | esrch
  | enomem
  deriving DecidableEq

variable (X : Platform)

def doSbrk (increment : Word) (k : Kernel) : Kernel × Except SbrkErrno Word :=
  match k.caller with
  | none => (k, .error .esrch)
  | some a =>
    let p := k.pcbs a
    let retPointer := p.heapPointer
    let curSz := p.heapPointer - p.heapBase
    let reqSz := curSz + increment
    if X.heapSize ≤ reqSz.toInt ∨ reqSz.toInt < 0 then (k, .error .enomem)
    else (k.setPcb a { p with heapPointer := p.heapPointer + increment }, .ok retPointer)

/-- The kernel after a sequence of calls. -/
def sbrks (k : Kernel) (increments : List Word) : Kernel :=
  increments.foldl (fun k increment => (doSbrk X increment k).1) k

/-- The size of the heap. -/
def Pcb.heapLength (p : Pcb) : ℤ := p.heapPointer.toNat - p.heapBase.toNat

/-- The size that is asked for lies in the heap. -/
def Pcb.Grants (p : Pcb) (increment : Word) : Prop :=
  0 ≤ p.heapLength + increment.toInt ∧ p.heapLength + increment.toInt < X.heapSize

instance (p : Pcb) (increment : Word) : Decidable (p.Grants X increment) :=
  inferInstanceAs (Decidable (_ ∧ _))

/-- The break of the calling process is in its heap, which does not wrap. -/
structure BreakInside (base : Word) (a : PcbPtr) (k : Kernel) : Prop where
  caller : k.caller = some a
  base_eq : (k.pcbs a).heapBase = base
  low : base.toNat ≤ (k.pcbs a).heapPointer.toNat
  high : (k.pcbs a).heapPointer.toNat < base.toNat + X.heapSize

variable {X} {k k' : Kernel} {a : PcbPtr} {base increment : Word}

/- The wrapped test decides the exact condition. -/
theorem refused_iff {cur : Word} {n : ℕ} (hcur : cur.toNat < n) (hn : n < 2 ^ 31) :
    ((n : ℤ) ≤ (cur + increment).toInt ∨ (cur + increment).toInt < 0) ↔
      ¬ (0 ≤ (cur.toNat : ℤ) + increment.toInt ∧ (cur.toNat : ℤ) + increment.toInt < n) := by
  have hlt := increment.isLt
  have hsum : (cur + increment).toNat = (cur.toNat + increment.toNat) % 2 ^ 32 :=
    BitVec.toNat_add ..
  rw [BitVec.toInt_eq_toNat_cond, BitVec.toInt_eq_toNat_cond, hsum]
  split_ifs <;> omega

theorem moved_toNat {pointer : Word} {n : ℕ} (hwrap : base.toNat + n ≤ 2 ^ 32)
    (hin : 0 ≤ (pointer.toNat : ℤ) - base.toNat + increment.toInt ∧
      (pointer.toNat : ℤ) - base.toNat + increment.toInt < n) :
    ((pointer + increment).toNat : ℤ) = pointer.toNat + increment.toInt := by
  have hlt := increment.isLt
  have hbase := base.isLt
  rw [BitVec.toNat_add]
  rw [BitVec.toInt_eq_toNat_cond] at hin ⊢
  split_ifs at hin ⊢ <;> omega

theorem doSbrk_eq (hsmall : X.heapSize < 2 ^ 31) (h : BreakInside X base a k) (increment : Word) :
    doSbrk X increment k = if (k.pcbs a).Grants X increment then
        (k.setPcb a { k.pcbs a with heapPointer := (k.pcbs a).heapPointer + increment },
          .ok (k.pcbs a).heapPointer)
      else (k, .error .enomem) := by
  have hsize : ((k.pcbs a).heapPointer - (k.pcbs a).heapBase).toNat =
      (k.pcbs a).heapPointer.toNat - base.toNat := by
    rw [h.base_eq, BitVec.toNat_sub_of_le (BitVec.le_def.mpr h.low)]
  have hhigh := h.high
  have hlow := h.low
  have hiff := @refused_iff increment ((k.pcbs a).heapPointer - (k.pcbs a).heapBase) X.heapSize
    (by omega) hsmall
  have hlength : (((k.pcbs a).heapPointer - (k.pcbs a).heapBase).toNat : ℤ) =
      (k.pcbs a).heapLength := by
    rw [hsize, Pcb.heapLength, h.base_eq]
    omega
  rw [hlength] at hiff
  simp only [doSbrk, h.caller]
  by_cases hgrants : (k.pcbs a).Grants X increment
  · rw [if_pos hgrants, if_neg fun hrefused => hiff.mp hrefused hgrants]
  · rw [if_neg hgrants, if_pos (hiff.mpr hgrants)]

/- A break that is granted stays in the heap. -/
theorem BreakInside.move (h : BreakInside X base a k) (hwrap : base.toNat + X.heapSize ≤ 2 ^ 32)
    (hgrants : (k.pcbs a).Grants X increment) :
    ((k.pcbs a).heapPointer + increment).toNat =
        ((k.pcbs a).heapPointer.toNat : ℤ) + increment.toInt ∧
      BreakInside X base a (k.setPcb a
        { k.pcbs a with heapPointer := (k.pcbs a).heapPointer + increment }) := by
  rw [Pcb.Grants, Pcb.heapLength, h.base_eq] at hgrants
  have hmoved := moved_toNat hwrap hgrants
  refine ⟨hmoved, h.caller, ?_, ?_, ?_⟩
  · rw [setPcb_pcbs_self]
    exact h.base_eq
  · rw [setPcb_pcbs_self]
    simp only
    omega
  · rw [setPcb_pcbs_self]
    simp only
    omega

theorem BreakInside.step (h : BreakInside X base a k) (hsmall : X.heapSize < 2 ^ 31)
    (hwrap : base.toNat + X.heapSize ≤ 2 ^ 32) (increment : Word) :
    BreakInside X base a (doSbrk X increment k).1 := by
  rw [doSbrk_eq hsmall h]
  split_ifs with hgrants
  · exact (h.move hwrap hgrants).2
  · exact h

theorem BreakInside.run (h : BreakInside X base a k) (hsmall : X.heapSize < 2 ^ 31)
    (hwrap : base.toNat + X.heapSize ≤ 2 ^ 32) (increments : List Word) :
    BreakInside X base a (sbrks X k increments) := by
  induction increments generalizing k with
  | nil => exact h
  | cons increment increments ih => exact ih (h.step hsmall hwrap increment)

variable (X)

/-- What the next call does: it succeeds exactly when the size it asks for lies in the heap,
gives the break and moves it, or it changes nothing. -/
structure BreakExact (a : PcbPtr) (k : Kernel) : Prop where
  succeeds : ∀ increment, (∃ old, (doSbrk X increment k).2 = .ok old) ↔
    (k.pcbs a).Grants X increment
  moves : ∀ increment old, (doSbrk X increment k).2 = .ok old → old = (k.pcbs a).heapPointer ∧
    ((doSbrk X increment k).1.pcbs a).heapPointer.toNat = (old.toNat : ℤ) + increment.toInt ∧
    (doSbrk X increment k).1 = k.setPcb a
      { k.pcbs a with heapPointer := ((doSbrk X increment k).1.pcbs a).heapPointer }
  fails : ∀ increment e, (doSbrk X increment k).2 = .error e →
    e = .enomem ∧ (doSbrk X increment k).1 = k
  restores : ∀ increment old old', (doSbrk X increment k).2 = .ok old →
    (doSbrk X (-increment) (doSbrk X increment k).1).2 = .ok old' →
      (doSbrk X (-increment) (doSbrk X increment k).1).1 = k

variable {X}

theorem setPcb_restore (k : Kernel) (a : PcbPtr) (p : Pcb) :
    (k.setPcb a p).setPcb a (k.pcbs a) = k := by
  simp [Kernel.setPcb]

theorem BreakInside.exact (h : BreakInside X base a k) (hsmall : X.heapSize < 2 ^ 31)
    (hwrap : base.toNat + X.heapSize ≤ 2 ^ 32) : BreakExact X a k := by
  constructor
  · intro increment
    rw [doSbrk_eq hsmall h]
    split_ifs with hgrants
    · exact iff_of_true ⟨_, rfl⟩ hgrants
    · exact iff_of_false (fun ⟨_, herror⟩ => nomatch herror) hgrants
  · intro increment old hok
    rw [doSbrk_eq hsmall h] at hok ⊢
    split_ifs at hok ⊢ with hgrants
    cases hok
    refine ⟨rfl, ?_, ?_⟩
    · rw [setPcb_pcbs_self]
      exact (h.move hwrap hgrants).1
    · rw [setPcb_pcbs_self]
  · intro increment e herror
    rw [doSbrk_eq hsmall h] at herror ⊢
    split_ifs at herror ⊢
    cases herror
    exact ⟨rfl, rfl⟩
  · intro increment old old' hok hback
    have hnext := h.step hsmall hwrap increment
    have hgrants : (k.pcbs a).Grants X increment := by
      by_contra hnot
      rw [doSbrk_eq hsmall h, if_neg hnot] at hok
      cases hok
    rw [doSbrk_eq hsmall h, if_pos hgrants] at hnext hback ⊢
    rw [doSbrk_eq hsmall hnext] at hback ⊢
    split_ifs at hback ⊢
    have hsame : (k.pcbs a).heapPointer + increment + -increment = (k.pcbs a).heapPointer := by
      rw [BitVec.add_assoc, BitVec.add_right_neg, BitVec.add_zero]
    simp only [setPcb_pcbs_self, hsame]
    exact setPcb_restore k a _

/-- Whatever was asked for before, the break is in the heap and the next call is exact. -/
theorem break_stays_in_heap (hpos : 0 < X.heapSize) (hsmall : X.heapSize < 2 ^ 31)
    (hwrap : (k.pcbs a).heapBase.toNat + X.heapSize ≤ 2 ^ 32) (hcaller : k.caller = some a)
    (hstart : (k.pcbs a).heapPointer = (k.pcbs a).heapBase) (increments : List Word) :
    BreakInside X (k.pcbs a).heapBase a (sbrks X k increments) ∧
      BreakExact X a (sbrks X k increments) := by
  have hin : BreakInside X (k.pcbs a).heapBase a k := by
    refine ⟨hcaller, rfl, Nat.le_of_eq (congrArg BitVec.toNat hstart.symm), ?_⟩
    rw [hstart]
    exact Nat.lt_add_of_pos_right hpos
  have hrun := hin.run hsmall hwrap increments
  exact ⟨hrun, hrun.exact hsmall hwrap⟩

/- A page to the front, one too many, and back by half a page. -/
theorem break_of_root :
    BreakInside rootPlatform (rootKernel.pcbs 0).heapBase 0
        (sbrks rootPlatform rootKernel [0x800#32, 0x800#32, 0xfffffc00#32]) ∧
      BreakExact rootPlatform 0
        (sbrks rootPlatform rootKernel [0x800#32, 0x800#32, 0xfffffc00#32]) :=
  break_stays_in_heap (by decide) (by decide) (by decide) rfl rfl _

/-! ### The heap of `exec` -/

theorem heapSize_le_pages (hpage : 0 < X.arch.pageSize) :
    X.heapSize ≤ X.heapPages * X.arch.pageSize := by
  have hdiv := Nat.div_add_mod (X.heapSize + X.arch.pageSize - 1) X.arch.pageSize
  have hmod := Nat.mod_lt (X.heapSize + X.arch.pageSize - 1) hpage
  rw [Platform.heapPages, Platform.pagesFor, Nat.mul_comm]
  omega

/-- Below the break, everything is mapped. -/
theorem BreakInside.mapped {image : ElfImage} (hpage : 0 < X.arch.pageSize)
    (h : BreakInside X (heapRegion X image).base a k) :
    (k.pcbs a).heapPointer.toNat < (heapRegion X image).top X.arch.pageSize := by
  have hle := heapSize_le_pages hpage
  have hhigh := h.high
  unfold Region.top
  exact Nat.lt_of_lt_of_le hhigh (Nat.add_le_add_left hle _)

/-- The break starts at the bottom of the heap. -/
theorem setup_break {image : ElfImage} {argv envp : Option (List ByteMemory.CStr)} {args : ℕ}
    {k' : Kernel} {ret : Word}
    (h : setupProcImageReplace X image a argv envp args k = some (k', ret)) :
    (k'.pcbs a).heapBase = (heapRegion X image).base ∧
      (k'.pcbs a).heapPointer = (k'.pcbs a).heapBase := by
  obtain ⟨k₁, k₂, hmap, _, hpcbs⟩ := setup_mapImage h
  unfold mapImage at hmap
  obtain ⟨ms₁, _, hmap⟩ := Option.bind_eq_some_iff.mp hmap
  obtain ⟨ms₂, _, hmap⟩ := Option.bind_eq_some_iff.mp hmap
  obtain ⟨ms₃, _, hmap⟩ := Option.bind_eq_some_iff.mp hmap
  obtain ⟨ms₄, _, hmap⟩ := Option.bind_eq_some_iff.mp hmap
  obtain rfl := Option.some.inj hmap
  rw [hpcbs]
  simp [Kernel.setPcb, Kernel.resetProcessStack, heapRegion, Platform.stackPages]

end SyeLabs.So3
