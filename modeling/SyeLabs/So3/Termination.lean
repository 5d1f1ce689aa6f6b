import SyeLabs.So3.Waitpid

/-!
# What `waitpid` reports of a terminated process

The request to trace a process is looked at before its state, and it may still be
pending when the process has ended.
-/

namespace SyeLabs.So3

/-- A finished thread is joined at once: nothing changes but that its process has no main
thread any more. -/
structure JoinsFinished (join : Option Tid → Kernel → Option Kernel) : Prop where
  finished : ∀ t k k' c, join t k = some k' → (k.pcbs c).mainThread = t →
    (k.pcbs c).state = .zombie → k'.pcbs = k.dropThread t

/-- The encoding of a normal exit: 0 in the low 7 bits, the code in bits 8 to 15. -/
def NormalExit (status exitCode : Word) : Prop :=
  status.toNat % 128 = 0 ∧ status.toNat / 256 % 256 = exitCode.toNat % 256

/-- A wait for `child` reports its exit; no terminated process comes back. -/
def ReportsTermination (X : Platform) (k : Kernel) (child : PcbPtr) (pid : Word) : Prop :=
  ∀ join, JoinsFinished join → ∀ wstatus options r,
    doWaitpid (X.withJoin join) pid wstatus options k = some r →
      (∀ s, r.ret = (k.pcbs child).pid → r.wstatus = some s →
        NormalExit s (k.pcbs child).exitStatus) ∧
      (∀ a, (k.pcbs a).state = .zombie → (r.kernel.pcbs a).state = .zombie) ∧
      ∀ a p, .resume a p ∈ r.effects → p.state ≠ .zombie

variable {X : Platform} {k k₁ : Kernel} {child : PcbPtr} {pid : Word}

/-! ### The status word -/

theorem normalExit_byte (b : BitVec 8) :
    (b.signExtend 32 <<< 8).toNat % 128 = 0 ∧
      (b.signExtend 32 <<< 8).toNat / 256 % 256 = b.toNat ∧
      (b.setWidth 32 <<< 8).toNat % 128 = 0 ∧ (b.setWidth 32 <<< 8).toNat / 256 % 256 = b.toNat := by
  revert b
  decide

theorem statusBits_normalExit (exitCode : Word) : NormalExit (statusBits X exitCode) exitCode := by
  obtain ⟨hslow, hsexit, hulow, huexit⟩ := normalExit_byte (exitCode.setWidth 8)
  rw [BitVec.toNat_setWidth] at hsexit huexit
  rw [NormalExit, statusBits]
  split_ifs
  · exact ⟨hslow, hsexit⟩
  · exact ⟨hulow, huexit⟩

/- A stopped process is reported with 0x7f in the low bits. -/
theorem stopped_not_normalExit (w exitCode : Word) : ¬ NormalExit (0x17f ||| w) exitCode := by
  rintro ⟨hlow, _⟩
  have hbit : (0x17f ||| w).getLsbD 0 = true := by simp
  rw [BitVec.getLsbD, Nat.testBit_zero, decide_eq_true_eq] at hbit
  omega

/-! ### A wait for a zombie -/

theorem dropThread_same (t : Option Tid) (c : PcbPtr) :
    ∃ m, k.dropThread t c = { k.pcbs c with mainThread := m } := by
  unfold Kernel.dropThread
  split_ifs
  · exact ⟨none, rfl⟩
  · exact ⟨(k.pcbs c).mainThread, rfl⟩

theorem reapChild_status {status : Word} {wstatus : Option Word} :
    (reapChild child status wstatus k).2.1 = wstatus.map fun _ => status := by
  rw [reapChild]
  split_ifs <;> rfl

/- `thread_join` as it is on a finished thread. -/
def joinAtOnce (t : Option Tid) (k : Kernel) : Option Kernel := some (k.joined t)

theorem joinAtOnce_finished : JoinsFinished joinAtOnce :=
  ⟨fun _ _ _ _ h _ _ => by rw [← Option.some.inj h]; rfl⟩

section
variable {join : Option Tid → Kernel → Option Kernel} {wstatus : Option Word} {options : Word}
  {r : WaitReturn}

theorem reports_of_untraced (hjoin : JoinsFinished join) (hchild : selectChild pid k = some child)
    (hzombie : (k.pcbs child).state = .zombie)
    (hreq : (k.pcbs child).ptracePendingReq = .noRequest)
    (hr : doWaitpid (X.withJoin join) pid wstatus options k = some r) :
    (∀ s, r.wstatus = some s → NormalExit s (k.pcbs child).exitStatus) ∧
      (∀ a, (k.pcbs a).state = .zombie → (r.kernel.pcbs a).state = .zombie) ∧
      ∀ a p, .resume a p ∉ r.effects := by
  have hrunning : ¬ (k.localIrqSave.pcbs child).Stopped := fun h => h.1 hreq
  rcases doWaitpid_cases hr with ⟨hnone, _⟩ | ⟨c, hc, ⟨_, hstate, _⟩ | ⟨_, k₁, hk₁, rfl⟩⟩
  · exact nomatch hchild.symm.trans hnone
  · obtain rfl := Option.some.inj (hchild.symm.trans hc)
    exact absurd hzombie hstate
  · obtain rfl := Option.some.inj (hchild.symm.trans hc)
    rw [resumeChild_unstopped hrunning, joinChild_zombie (k := k.localIrqSave) hzombie] at hk₁
    have hpcbs : k₁.pcbs = k.dropThread (k.pcbs child).mainThread :=
      hjoin.finished _ k.localIrqSave k₁ child hk₁ rfl hzombie
    have hsame : ∀ c, ∃ m, k₁.pcbs c = { k.pcbs c with mainThread := m } := fun c => by
      rw [hpcbs]
      exact dropThread_same _ c
    obtain ⟨m, hm⟩ := hsame child
    have hreq₁ : (k₁.pcbs child).ptracePendingReq = .noRequest := by rw [hm, hreq]
    have hzombie₁ : (k₁.pcbs child).state = .zombie := by rw [hm, hzombie]
    rw [resumeChild_unstopped hrunning, collectChild_untraced hreq₁, if_pos hzombie₁]
    refine ⟨fun s hs => ?_, fun a ha => ?_, fun a p he => ?_⟩
    · rw [reapChild_status] at hs
      obtain ⟨w, _, rfl⟩ := Option.map_eq_some_iff.mp hs
      rw [hm]
      exact statusBits_normalExit _
    · change (((reapChild child _ wstatus k₁).1.pcbs a).state = .zombie)
      obtain ⟨m', hm'⟩ := hsame a
      rw [reapChild_kernel, hm', ha]
    · rcases mem_reapChild he with h | ⟨h, _⟩ | h <;> cases h

/- With a request pending the status says that the process was stopped. -/
theorem traced_reported_stopped (hchild : selectChild pid k = some child)
    (hzombie : (k.pcbs child).state = .zombie)
    (hreq : (k.pcbs child).ptracePendingReq = .traceme)
    (h : ReportsTermination X k child pid) : False := by
  have hrunning : ¬ (k.localIrqSave.pcbs child).Stopped := fun hstopped => hstopped.2 hreq
  have hjoin : joinChild (X.withJoin joinAtOnce) child (resumeChild child k.localIrqSave).1 =
      some (k.localIrqSave.joined (k.pcbs child).mainThread) := by
    rw [resumeChild_unstopped hrunning, joinChild_zombie (k := k.localIrqSave) hzombie]
    rfl
  have hreq₁ : ((k.localIrqSave.joined (k.pcbs child).mainThread).pcbs child).ptracePendingReq ≠
      .noRequest := by
    change (k.dropThread (k.pcbs child).mainThread child).ptracePendingReq ≠ .noRequest
    obtain ⟨m, hm⟩ := dropThread_same (k := k) (k.pcbs child).mainThread child
    rw [hm, hreq]
    exact nofun
  have hr : doWaitpid (X.withJoin joinAtOnce) pid (some 0) 0 k = some _ :=
    doWaitpid_joined hchild (fun hnohang => hnohang.2 hzombie) hjoin
  have hstatus := (h joinAtOnce joinAtOnce_finished _ _ _ hr).1
  simp only [collectChild_traced hreq₁] at hstatus
  exact stopped_not_normalExit _ _ (hstatus _ (selectChild_pid hchild) rfl)

/- A request that had stopped it makes a zombie ready again. -/
theorem stopped_made_ready (hchild : selectChild pid k = some child)
    (hzombie : (k.pcbs child).state = .zombie) (hstopped : (k.pcbs child).Stopped)
    (h : ReportsTermination X k child pid) : False := by
  have hnotwaiting :
      ((k.localIrqSave.setPcb child { k.pcbs child with state := .ready }).pcbs child).state ≠
        .waiting := by
    rw [setPcb_pcbs_self]
    exact nofun
  have hresume := resumeChild_stopped (k := k.localIrqSave) hstopped
  have hjoin := joinChild_joins (X := X.withJoin joinAtOnce) hnotwaiting
  have hr : doWaitpid (X.withJoin joinAtOnce) pid none 0 k = some _ :=
    doWaitpid_joined hchild (fun hnohang => hnohang.2 hzombie) (by rw [hresume]; exact hjoin)
  refine (h joinAtOnce joinAtOnce_finished _ _ _ hr).2.2 child (k.pcbs child) ?_ hzombie
  rw [hresume]
  exact List.mem_append_left _ (List.mem_singleton.mpr rfl)

/-- The end of a process is final and reported as such exactly when no request of a
tracer is pending on it. -/
theorem reportsTermination_iff (X : Platform) {k : Kernel} {child : PcbPtr} {pid : Word}
    (hchild : selectChild pid k = some child) (hzombie : (k.pcbs child).state = .zombie) :
    ReportsTermination X k child pid ↔ (k.pcbs child).ptracePendingReq = .noRequest := by
  constructor
  · intro h
    by_contra hreq
    by_cases htraceme : (k.pcbs child).ptracePendingReq = .traceme
    · exact traced_reported_stopped hchild hzombie htraceme h
    · exact stopped_made_ready hchild hzombie ⟨hreq, htraceme⟩ h
  · intro hreq join hjoin wstatus options r hr
    obtain ⟨hstatus, hfinal, hready⟩ := reports_of_untraced hjoin hchild hzombie hreq hr
    exact ⟨fun s _ hs => hstatus s hs, hfinal, fun a p he => absurd he (hready a p)⟩

theorem reportsTermination_grandchild :
    ReportsTermination rootPlatform familyKernel 2 3 ↔
      (familyKernel.pcbs 2).ptracePendingReq = .noRequest :=
  reportsTermination_iff rootPlatform rfl rfl

/- The same family, the grandchild having asked to be traced before it ended. -/
def tracedKernel : Kernel :=
  familyKernel.setPcb 2 { familyKernel.pcbs 2 with ptracePendingReq := .traceme }

theorem traced_zombie_reported_stopped : ¬ ReportsTermination rootPlatform tracedKernel 2 3 :=
  traced_reported_stopped rfl rfl rfl

end

end SyeLabs.So3
