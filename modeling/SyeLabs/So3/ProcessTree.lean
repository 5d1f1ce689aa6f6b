import SyeLabs.So3.Runs
import SyeLabs.Library.ParentTree

/-!
# The tree of processes

As long as the counter of pids has not wrapped, the pids of the table differ and are
not 0, and the parent pointers make a tree whose root is the root process.
-/

namespace SyeLabs.So3
open ParentTree

def Kernel.parentOf (k : Kernel) (a : PcbPtr) : Option PcbPtr := (k.pcbs a).parent

def Kernel.table (k : Kernel) : Set PcbPtr := {a | a ∈ k.procList}

/-- `tree` says that only the root has no parent, that the others have theirs in the
table, and that the parents lead to the root, which is in the table. -/
structure TreeIntact (k : Kernel) : Prop where
  pids : (k.procList.map fun a => (k.pcbs a).pid).Nodup
  pid_ne_zero : ∀ a ∈ k.procList, (k.pcbs a).pid ≠ 0
  tree : Rooted k.parentOf k.table 0
  acyclic : ∀ a ∈ k.procList, ¬ Relation.TransGen (ChildOf k.parentOf) a a

/-- The PCB number `a` has the pid `a + 1`, and the root process never ends. -/
structure Genealogy (k : Kernel) : Prop where
  settled : Settled k
  pid : ∀ a ∈ k.procList, (k.pcbs a).pid = BitVec.ofNat 32 (a + 1)
  pidCurrent : k.pidCurrent = BitVec.ofNat 32 (k.created + 1)
  tree : Rooted k.parentOf k.table 0
  rootAlive : (k.pcbs 0).state ≠ .zombie

variable {X : Platform} {k k' : Kernel}

theorem Start.genealogy (h : Start k) : Genealogy k := by
  have hroot : ∀ a ∈ k.procList, a = 0 := fun a ha => by
    rw [h.procList] at ha
    exact List.mem_singleton.mp ha
  have hmem : (0 : PcbPtr) ∈ k.table := by
    change 0 ∈ k.procList
    rw [h.procList]
    exact List.mem_singleton.mpr rfl
  refine ⟨h.settled, fun a ha => ?_, ?_, ⟨hmem, h.parent, fun a ha hne => ?_, fun a ha => ?_⟩, ?_⟩
  · rw [hroot a ha, h.pid]
    rfl
  · rw [h.pidCurrent, h.created]
    rfl
  · exact absurd (hroot a ha) hne
  · rw [hroot a ha]
  · rw [h.state]
    exact nofun

theorem Rooted.table_congr {parent : PcbPtr → Option PcbPtr} (h : Rooted parent k.table 0)
    (hlist : k'.procList = k.procList) : Rooted parent k'.table 0 := by
  have hsame : k'.table = k.table := by
    ext a
    change a ∈ k'.procList ↔ a ∈ k.procList
    rw [hlist]
  rwa [hsame]

theorem SameTable.genealogy (h : SameTable k k') (hk : Genealogy k) : Genealogy k' := by
  refine ⟨h.settled hk.settled, ?_, ?_, ?_, ?_⟩
  · rw [h.procList, h.pcbs]
    exact hk.pid
  · rw [h.pidCurrent, h.created]
    exact hk.pidCurrent
  · refine Rooted.table_congr (hk.tree.congr fun a _ => ?_) h.procList
    rw [Kernel.parentOf, h.pcbs]
    rfl
  · rw [h.pcbs]
    exact hk.rootAlive

/- The new process is a leaf under the process that forks. -/
theorem Forks.genealogy {p : PcbPtr} {child : Pcb} (h : Forks k k' p child) (hk : Genealogy k)
    (hp : p ∈ k.procList) : Genealogy k' := by
  have hnew : k.created ∉ k.table := fun hmem =>
    absurd (hk.settled.fresh k.created hmem) (Nat.lt_irrefl _)
  have htable : k'.table = insert k.created k.table := by
    ext a
    change a ∈ k'.procList ↔ a = k.created ∨ a ∈ k.procList
    rw [h.procList, List.mem_append, List.mem_singleton, or_comm]
  refine ⟨h.settled hk.settled, fun a ha => ?_, ?_, ?_, ?_⟩
  · rw [h.procList] at ha
    rcases List.mem_append.mp ha with ha | ha
    · rw [h.old hk.settled ha, hk.pid a ha]
    · rw [List.mem_singleton.mp ha, h.born, h.pid, hk.pidCurrent]
  · rw [h.pidCurrent, h.created, hk.pidCurrent]
    exact (BitVec.ofNat_add (k.created + 1) 1).symm
  · rw [htable]
    refine (hk.tree.insertLeaf hnew hp).congr fun a _ => ?_
    rw [Kernel.parentOf, h.pcbs]
    by_cases ha : a = k.created
    · rw [ha, Function.update_self, Function.update_self, h.parent]
    · rw [Function.update_of_ne ha, Function.update_of_ne ha]
      rfl
  · rw [h.old hk.settled hk.tree.root_mem]
    exact hk.rootAlive

theorem Exits.genealogy {p : PcbPtr} {exitStatus : Word} (h : Exits k k' p exitStatus)
    (hk : Genealogy k) (hp : p ∈ k.procList) : Genealogy k' := by
  refine ⟨h.settled hk.settled hp, fun a ha => ?_, ?_, ?_, ?_⟩
  · rw [h.procList] at ha
    rw [h.pcb]
    split_ifs with hap
    · rw [hap]
      exact hk.pid p hp
    · exact hk.pid a ha
  · rw [h.pidCurrent, h.created]
    exact hk.pidCurrent
  · refine Rooted.table_congr (hk.tree.congr fun a _ => ?_) h.procList
    rw [Kernel.parentOf, h.pcb]
    split_ifs with hap
    · rw [hap]
      rfl
    · rfl
  · -- the root has no parent, so it is not the one that ends
    have hroot : 0 ≠ p := fun h0 => h.parent (h0 ▸ hk.tree.root_parent)
    rw [h.pcb, if_neg hroot]
    exact hk.rootAlive

/- A process that leaves the table is a leaf, and not the root, which is no zombie. -/
theorem Reaps.genealogy {child : PcbPtr} (h : Reaps k k' child) (hk : Genealogy k)
    (hchild : child ∈ k.procList) : Genealogy k' := by
  have hparent : ∀ a, k'.parentOf a = k.parentOf a := fun a => by
    obtain ⟨m, hm⟩ := h.same a
    rw [Kernel.parentOf, hm]
    rfl
  refine ⟨h.settled hk.settled, fun a ha => ?_, ?_, ?_, ?_⟩
  · obtain ⟨m, hm⟩ := h.same a
    rw [hm]
    exact hk.pid a (h.mem ha)
  · rw [h.pidCurrent, h.created]
    exact hk.pidCurrent
  · by_cases hleaf : k.findProcByParent child = none
    · have hroot : child ≠ 0 := fun h0 => hk.rootAlive (h0 ▸ h.zombie hk.settled hchild)
      have htable : k'.table = k.table \ {child} := by
        ext a
        change a ∈ k'.procList ↔ a ∈ k.procList ∧ a ≠ child
        rw [h.procList, if_pos hleaf, hk.settled.nodup.mem_erase_iff, and_comm]
      rw [htable]
      exact (hk.tree.eraseLeaf hroot (findProcByParent_none.mp hleaf)).congr fun a _ => hparent a
    · refine Rooted.table_congr (hk.tree.congr fun a _ => hparent a) ?_
      rw [h.procList, if_neg hleaf]
  · obtain ⟨m, hm⟩ := h.same 0
    rw [hm]
    exact hk.rootAlive

theorem Genealogy.step {reaped : List PcbPtr} (hk : Genealogy k) (h : TableStep k k' reaped) :
    Genealogy k' := by
  cases h with
  | same h => exact h.genealogy hk
  | fork p child hp h => exact h.genealogy hk hp
  | exit p exitStatus hp h => exact h.genealogy hk hp
  | reap child hchild h => exact h.genealogy hk hchild

theorem Genealogy.intact (hk : Genealogy k) (hfew : k.created < 2 ^ 32) : TreeIntact k := by
  have hsmall : ∀ a ∈ k.procList, a + 1 < 2 ^ 32 := fun a ha =>
    Nat.lt_of_le_of_lt (hk.settled.fresh a ha) (by omega)
  refine ⟨?_, fun a ha hzero => ?_, hk.tree, fun a ha => hk.tree.acyclic ha⟩
  · refine (List.nodup_map_iff_inj_on hk.settled.nodup).mpr fun a ha b hb hab => ?_
    rw [hk.pid a ha, hk.pid b hb] at hab
    have hnat := congrArg BitVec.toNat hab
    rw [BitVec.toNat_ofNat, BitVec.toNat_ofNat, Nat.mod_eq_of_lt (hsmall a ha),
      Nat.mod_eq_of_lt (hsmall b hb)] at hnat
    exact Nat.succ.inj hnat
  · rw [hk.pid a ha] at hzero
    have hnat := congrArg BitVec.toNat hzero
    rw [BitVec.toNat_ofNat, Nat.mod_eq_of_lt (hsmall a ha)] at hnat
    exact Nat.succ_ne_zero a hnat

/-- In every state that a run reaches with fewer than `2 ^ 32` processes created, the
root included, the tree of processes is intact. -/
theorem process_tree_intact {s t : Sys} {es : List Event} (hjoin : JoinsInStep X.threadJoin)
    (hstart : Start s.kernel) (hrun : Run.exec (Sys.step X) s es = some t)
    (hfew : t.kernel.created < 2 ^ 32) : TreeIntact t.kernel := by
  have hstep : ∀ u e u', Genealogy u.kernel → Sys.step X u e = some u' →
      Genealogy u'.kernel := fun u e u' hu h => by
    obtain ⟨reaped, hdone⟩ := step_table hjoin hu.settled h
    exact hu.step hdone.table
  have hreached : Genealogy t.kernel := Run.exec_invariant_of_step
    (I := fun u => Genealogy u.kernel) hstep hstart.genealogy hrun
  exact hreached.intact hfew

/- The root process forks 1, which forks 2 and ends; the root reaps 1. -/
def leftGrandchild : List Event :=
  [⟨0, .fork⟩, ⟨1, .fork⟩, ⟨1, .exit 0⟩, ⟨0, .waitpid (-1) none 0⟩]

theorem tree_intact_grandchild :
    ∃ t, Run.exec (Sys.step rootPlatform) ⟨rootKernel, [], []⟩ leftGrandchild = some t ∧
      t.released = [1] ∧ t.kernel.procList = [0, 1, 2] ∧ TreeIntact t.kernel := by
  have hlast : (Run.exec (Sys.step rootPlatform) ⟨rootKernel, [], []⟩ leftGrandchild).map
      (fun t => (t.released, t.kernel.procList, t.kernel.created)) =
        some ([1], [0, 1, 2], 3) := by decide
  obtain ⟨t, ht, hend⟩ := Option.map_eq_some_iff.mp hlast
  obtain ⟨hreleased, hend⟩ := Prod.mk.inj hend
  obtain ⟨hlist, hcreated⟩ := Prod.mk.inj hend
  exact ⟨t, ht, hreleased, hlist, process_tree_intact joinFinished_inStep rootKernel_start ht
    (by rw [hcreated]; decide)⟩

end SyeLabs.So3
