import SyeLabs.So3.Runs

/-!
# Reaped processes that stay in the table

A process that is reaped while it has children keeps its PCB. Nothing takes it away
when its last child goes, and nothing prevents a second wait for its pid.
-/

namespace SyeLabs.So3

variable (X : Platform)

/-! ### Staying without a child -/

/-- A reaped process of the table has a child in it. -/
def Sys.KeptForChildren (s : Sys) : Prop :=
  ∀ q ∈ s.kernel.procList, q ∈ s.released →
    ∃ c ∈ s.kernel.procList, (s.kernel.pcbs c).parent = some q

/-- The event reaps a childless process whose parent, reaped before, has no other child. -/
def ReapsLastChild (s : Sys) (e : Event) : Prop :=
  ∃ c q, WaitsFor X s.kernel e c ∧ s.kernel.findProcByParent c = none ∧
    (s.kernel.pcbs c).parent = some q ∧ q ∈ s.kernel.procList ∧ q ∈ s.released ∧
    ∀ d ∈ s.kernel.procList, (s.kernel.pcbs d).parent = some q → d = c

/-- The logs mention processes of the table or of the past. -/
structure Logged (s : Sys) : Prop where
  settled : Settled s.kernel
  released : ∀ a ∈ s.released, a < s.kernel.created
  delivered : ∀ a ∈ s.delivered, a ∈ s.released

variable {X} {k k' : Kernel} {s s' : Sys} {e : Event} {reaped : List PcbPtr}

theorem TableStep.created_le (h : TableStep k k' reaped) : k.created ≤ k'.created := by
  cases h with
  | same h => exact Nat.le_of_eq h.created.symm
  | fork p child hp h => exact h.created ▸ Nat.le_succ _
  | exit p exitStatus hp h => exact Nat.le_of_eq h.created.symm
  | reap child hchild h => exact Nat.le_of_eq h.created.symm

theorem TableStep.reaped_mem (h : TableStep k k' reaped) : ∀ a ∈ reaped, a ∈ k.procList := by
  cases h with
  | same h => exact fun a ha => absurd ha List.not_mem_nil
  | fork p child hp h => exact fun a ha => absurd ha List.not_mem_nil
  | exit p exitStatus hp h => exact fun a ha => absurd ha List.not_mem_nil
  | reap child hchild h => exact fun a ha => List.mem_singleton.mp ha ▸ hchild

theorem Logged.step (hs : Logged s) (h : SysStep X s s' e reaped) : Logged s' := by
  have hreleased : ∀ a ∈ s'.released, a ∈ s.released ∨ a ∈ reaped := fun a ha => by
    rw [h.released] at ha
    exact List.mem_append.mp ha
  refine ⟨hs.settled.step h.table, fun a ha => ?_, fun a ha => ?_⟩
  · refine Nat.lt_of_lt_of_le ?_ h.table.created_le
    rcases hreleased a ha with ha | ha
    · exact hs.released a ha
    · exact hs.settled.fresh a (h.table.reaped_mem a ha)
  · rw [h.released]
    rcases h.delivered with hsame | hmore
    · rw [hsame] at ha
      exact List.mem_append_left _ (hs.delivered a ha)
    · rw [hmore] at ha
      exact List.mem_append.mpr ((List.mem_append.mp ha).imp_left (hs.delivered a))

/- A process that was in the table before the step is there with the same parent, unless
it was reaped without children. -/
theorem TableStep.keeps (h : TableStep k k' reaped) (hk : Settled k) {a : PcbPtr}
    (ha : a ∈ k.procList) (hkept : a ∈ reaped → k.findProcByParent a ≠ none) :
    a ∈ k'.procList ∧ (k'.pcbs a).parent = (k.pcbs a).parent := by
  cases h with
  | same h => exact ⟨h.procList ▸ ha, by rw [h.pcbs]⟩
  | fork p child hp h =>
    refine ⟨?_, by rw [h.old hk ha]⟩
    rw [h.procList]
    exact List.mem_append_left _ ha
  | exit p exitStatus hp h =>
    refine ⟨h.procList ▸ ha, ?_⟩
    rw [h.pcb]
    split_ifs with hap
    · rw [hap]
    · rfl
  | reap child hchild h =>
    obtain ⟨m, hm⟩ := h.same a
    refine ⟨?_, by rw [hm]⟩
    rw [h.procList]
    split_ifs with hleaf
    · refine (List.mem_erase_of_ne fun hac => ?_).mpr ha
      exact hkept (List.mem_singleton.mpr hac) (hac ▸ hleaf)
    · exact ha

theorem TableStep.mem (h : TableStep k k' reaped) {a : PcbPtr} (ha : a ∈ k'.procList) :
    a ∈ k.procList ∨ a = k.created := by
  cases h with
  | same h => exact Or.inl (h.procList ▸ ha)
  | fork p child hp h =>
    rw [h.procList] at ha
    exact (List.mem_append.mp ha).imp_right List.mem_singleton.mp
  | exit p exitStatus hp h => exact Or.inl (h.procList ▸ ha)
  | reap child hchild h => exact Or.inl (h.mem ha)

theorem TableStep.reaped_eq (h : TableStep k k' reaped) {a : PcbPtr} (ha : a ∈ reaped) :
    reaped = [a] := by
  cases h with
  | same h => exact absurd ha List.not_mem_nil
  | fork p child hp h => exact absurd ha List.not_mem_nil
  | exit p exitStatus hp h => exact absurd ha List.not_mem_nil
  | reap child hchild h => rw [List.mem_singleton.mp ha]

/- A process that is reaped and stays has a child, which stays too. -/
theorem TableStep.kept_child (h : TableStep k k' reaped) (hk : Settled k) {q : PcbPtr}
    (hreaped : q ∈ reaped) (hq : q ∈ k'.procList) :
    ∃ c ∈ k'.procList, (k'.pcbs c).parent = some q := by
  cases h with
  | same h => exact absurd hreaped List.not_mem_nil
  | fork p child hp h => exact absurd hreaped List.not_mem_nil
  | exit p exitStatus hp h => exact absurd hreaped List.not_mem_nil
  | reap child hchild h =>
    obtain rfl := List.mem_singleton.mp hreaped
    rw [h.procList] at hq ⊢
    split_ifs at hq ⊢ with hleaf
    · exact absurd rfl (hk.nodup.mem_erase_iff.mp hq).1
    · rw [findProcByParent_none] at hleaf
      push Not at hleaf
      obtain ⟨c, hc, hparent⟩ := hleaf
      obtain ⟨m, hm⟩ := h.same c
      exact ⟨c, hc, by rw [hm]; exact hparent⟩

theorem last_child_leaves (hs : Settled s.kernel) (h : SysStep X s s' e reaped)
    (hlast : ReapsLastChild X s e) : ¬ s'.KeptForChildren := by
  obtain ⟨c, q, hwaits, hleaf, hparent, hq, hreleased, honly⟩ := hlast
  obtain rfl := (h.waits c).mp hwaits
  intro hkept
  cases h.table with
  | reap _ hc hreaps =>
    have hqc : q ≠ c := fun hqc => findProcByParent_none.mp hleaf c hc (hqc ▸ hparent)
    have hlist : s'.kernel.procList = s.kernel.procList.erase c := by
      rw [hreaps.procList, if_pos hleaf]
    obtain ⟨d, hd, hdq⟩ := hkept q (by rw [hlist]; exact (List.mem_erase_of_ne hqc).mpr hq)
      (by rw [h.released]; exact List.mem_append_left _ hreleased)
    obtain ⟨m, hm⟩ := hreaps.same d
    rw [hm] at hdq
    rw [hlist, hs.nodup.mem_erase_iff] at hd
    exact hd.1 (honly d hd.2 hdq)

theorem kept_step (hs : Logged s) (hkept : s.KeptForChildren) (h : SysStep X s s' e reaped) :
    s'.KeptForChildren ↔ ¬ ReapsLastChild X s e := by
  refine ⟨fun hkept' hlast => last_child_leaves hs.settled h hlast hkept', fun hno q hq hqr => ?_⟩
  rw [h.released] at hqr
  rcases List.mem_append.mp hqr with hqr | hqr
  · have hold : q ∈ s.kernel.procList := (h.table.mem hq).resolve_right
      (Nat.ne_of_lt (hs.released q hqr))
    obtain ⟨c, hc, hparent⟩ := hkept q hold hqr
    by_cases hgone : c ∈ reaped ∧ s.kernel.findProcByParent c = none
    · -- another child stays, or this would be the last one
      have hwaits := (h.waits c).mpr (h.table.reaped_eq hgone.1)
      have hother : ¬ ∀ d ∈ s.kernel.procList, (s.kernel.pcbs d).parent = some q → d = c :=
        fun honly => hno ⟨c, q, hwaits, hgone.2, hparent, hold, hqr, honly⟩
      push Not at hother
      obtain ⟨d, hd, hdq, hdc⟩ := hother
      have hstays := h.table.keeps hs.settled hd fun hdr => absurd
        (List.mem_singleton.mp ((h.table.reaped_eq hgone.1) ▸ hdr)) hdc
      exact ⟨d, hstays.1, hstays.2.trans hdq⟩
    · have hstays := h.table.keeps hs.settled hc fun hcr hleaf => hgone ⟨hcr, hleaf⟩
      exact ⟨c, hstays.1, hstays.2.trans hparent⟩
  · exact h.table.kept_child hs.settled hqr hq

/-- In a run no reaped process stays without a child exactly when no step reaps the last
child of one. -/
theorem keptForChildren_iff {t : Sys} {es : List Event} (hjoin : JoinsInStep X.threadJoin)
    (hstart : Start s.kernel) (hlog : s.released = [] ∧ s.delivered = [])
    (hrun : Run.exec (Sys.step X) s es = some t) :
    Run.Along (Sys.step X) Sys.KeptForChildren s es ↔
      Run.Meets (Sys.step X) (fun u e => ¬ ReapsLastChild X u e) s es := by
  have hlogged : Logged s := ⟨hstart.settled, by simp [hlog.1], by simp [hlog.2]⟩
  have hkept : s.KeptForChildren := fun q _ hq => by simp [hlog.1] at hq
  have hstep : ∀ u e u', Logged u → Sys.step X u e = some u' → Logged u' := fun u e u' hu h => by
    obtain ⟨reaped, hdone⟩ := step_table hjoin hu.settled h
    exact hu.step hdone
  have hiff := Run.along_meets_iff (Q := fun _ _ => True) (P := Sys.KeptForChildren)
    (G := fun u e => ¬ ReapsLastChild X u e) hstep (fun u e u' hu hP h => by
      obtain ⟨reaped, hdone⟩ := step_table hjoin hu.settled h
      rw [and_true]
      exact kept_step hu hP hdone) hlogged hkept hrun
  rw [← hiff]
  exact (and_iff_left (Run.meets_of_forall (K := fun _ => True) (fun _ _ _ => trivial)
    fun _ _ => trivial)).symm

instance (s : Sys) : Decidable s.KeptForChildren :=
  inferInstanceAs (Decidable (∀ q ∈ s.kernel.procList, q ∈ s.released →
    ∃ c ∈ s.kernel.procList, (s.kernel.pcbs c).parent = some q))

def rootSys : Sys := ⟨rootKernel, [], []⟩

/- The root process forks 1, which forks 2 and ends; the root reaps 1, then 2 ends and is
reaped. -/
def orphans : List Event :=
  [⟨0, .fork⟩, ⟨1, .fork⟩, ⟨1, .exit 0⟩, ⟨0, .waitpid (-1) none 0⟩, ⟨2, .exit 0⟩,
    ⟨0, .waitpid (-1) none 0⟩]

theorem keptForChildren_orphans :
    ∃ t, Run.exec (Sys.step rootPlatform) rootSys orphans = some t ∧ t.released = [1, 2] ∧
      t.kernel.procList = [0, 1] ∧
      ¬ Run.Meets (Sys.step rootPlatform) (fun u e => ¬ ReapsLastChild rootPlatform u e) rootSys
        orphans := by
  have hlast : (Run.exec (Sys.step rootPlatform) rootSys orphans).map
      (fun t => (t.released, t.kernel.procList, decide t.KeptForChildren)) =
        some ([1, 2], [0, 1], false) := by decide
  obtain ⟨t, ht, hend⟩ := Option.map_eq_some_iff.mp hlast
  obtain ⟨hreleased, hend⟩ := Prod.mk.inj hend
  obtain ⟨hlist, hdecide⟩ := Prod.mk.inj hend
  refine ⟨t, ht, hreleased, hlist, fun hmeets => ?_⟩
  have halong := (keptForChildren_iff joinFinished_inStep rootKernel_start ⟨rfl, rfl⟩ ht).mpr hmeets
  exact of_decide_eq_false hdecide (Run.along_last halong ht)

theorem reaped_parent_stays :
    ∃ t, Run.exec (Sys.step rootPlatform) rootSys orphans = some t ∧ ¬ t.KeptForChildren := by
  have hlast : (Run.exec (Sys.step rootPlatform) rootSys orphans).map
      (fun t => decide t.KeptForChildren) = some false := by decide
  obtain ⟨t, ht, hdecide⟩ := Option.map_eq_some_iff.mp hlast
  exact ⟨t, ht, of_decide_eq_false hdecide⟩

end SyeLabs.So3
