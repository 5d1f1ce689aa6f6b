import SyeLabs.Battleship.Sync
import SyeLabs.Library.Lockstep

/-!
# What a peer can find out about a board

The peer sees the bytes of the connection and nothing else. Two boards that agree on
the cells it shoots at answer alike, whatever it sends; two that differ on one of
them give the difference away in the answer to that shot.
-/

namespace SyeLabs.Battleship
open Duplex

namespace Player

/-- The cell a byte read as a shot addresses. -/
def asks (p : Player) : Act → List Cell
  | .recv (.byte b) =>
    if p.pc = .recvShot ∧ p.errno ≠ EINTR ∧ b ≠ FORFEIT then (cell? b).toList else []
  | _ => []

/-- The byte a step hands to the connection. -/
def posts (p : Player) : Act → List Byte
  | .sendOk => match p.pc with
    | .send what _ => [p.sendByte what]
    | _ => []
  | _ => []

def asked (p : Player) (acts : List Act) : List Cell := Run.observe step asks p acts

def wire (p : Player) (acts : List Act) : List Byte := Run.observe step posts p acts

/-- The player with another grid of its own and another screen. -/
def veil (p : Player) (userGrid : Grid) (out : List Printed) : Player :=
  {p with userGrid := userGrid, out := out}

section
variable (p : Player) (g : Grid) (o : List Printed)

@[simp] theorem veil_userGrid : (p.veil g o).userGrid = g := (rfl)
@[simp] theorem veil_advGrid : (p.veil g o).advGrid = p.advGrid := (rfl)
@[simp] theorem veil_userBoats : (p.veil g o).userBoats = p.userBoats := (rfl)
@[simp] theorem veil_advBoats : (p.veil g o).advBoats = p.advBoats := (rfl)
@[simp] theorem veil_firstIter : (p.veil g o).firstIter = p.firstIter := (rfl)
@[simp] theorem veil_usrInput : (p.veil g o).usrInput = p.usrInput := (rfl)
@[simp] theorem veil_data : (p.veil g o).data = p.data := (rfl)
@[simp] theorem veil_forfeitFlag : (p.veil g o).forfeitFlag = p.forfeitFlag := (rfl)
@[simp] theorem veil_errno : (p.veil g o).errno = p.errno := (rfl)
@[simp] theorem veil_pc : (p.veil g o).pc = p.pc := (rfl)

end

/-- Two players who differ at most in what their own grids hold outside `A`, and in what
they have printed. -/
def Alike (A : Set Cell) (p q : Player) : Prop :=
  ∃ g o, q = p.veil g o ∧ ∀ c ∈ A, g c = p.userGrid c

variable {A : Set Cell} {p q p' q' : Player}

theorem alike_start {g g' : Grid} (h : ∀ c ∈ A, g' c = g c) (server : Bool) (errno : ℕ) :
    Alike A (start g server errno) (start g' server errno) :=
  ⟨g', [], rfl, h⟩

theorem alike_update {g : Grid} {c : Cell} (hg : ∀ c ∈ A, g c = p.userGrid c) (mark : GridState) :
    ∀ d ∈ A, Function.update g c mark d = Function.update p.userGrid c mark d := by
  intro d hd
  by_cases hdc : d = c
  · simp only [hdc, Function.update_self]
  · simp only [Function.update_of_ne hdc, hg d hd]

/-! ### The code between two points, one lemma for each part of it -/

theorem Alike.loopHead (h : Alike A p q) : Alike A p.loopHead q.loopHead := by
  obtain ⟨g, o, rfl, hg⟩ := h
  simp only [Player.loopHead, veil_forfeitFlag, veil_firstIter]
  split_ifs
  · exact ⟨g, _, rfl, hg⟩
  · exact ⟨g, _, rfl, hg⟩
  · exact ⟨g, _, rfl, hg⟩

theorem Alike.afterPrompt (h : Alike A p q) (value : Byte) :
    Alike A (p.afterPrompt value) (q.afterPrompt value) := by
  obtain ⟨g, o, rfl, hg⟩ := h
  simp only [Player.afterPrompt, veil_advGrid]
  split_ifs
  · exact ⟨g, _, rfl, hg⟩
  · cases cell? value with
    | none => exact ⟨g, _, rfl, hg⟩
    | some c =>
      simp only
      split_ifs
      · exact ⟨g, _, rfl, hg⟩
      · exact ⟨g, _, rfl, hg⟩

theorem Alike.testFlag (h : Alike A p q) (hexValue : ℤ) :
    Alike A (p.testFlag hexValue) (q.testFlag hexValue) := by
  obtain ⟨g, o, rfl, hg⟩ := h
  simp only [Player.testFlag, veil_forfeitFlag]
  split_ifs
  · exact afterPrompt ⟨g, o, rfl, hg⟩ _
  · exact ⟨g, _, rfl, hg⟩
  · exact ⟨g, _, rfl, hg⟩

theorem Alike.clearBuffer (h : Alike A p q) (hexValue c : ℤ) :
    Alike A (p.clearBuffer hexValue c) (q.clearBuffer hexValue c) := by
  simp only [Player.clearBuffer, bufferCleared]
  split_ifs
  · exact h
  · exact h.afterPrompt _
  · obtain ⟨g, o, rfl, hg⟩ := h
    exact ⟨g, o, rfl, hg⟩

theorem Alike.afterResult (h : Alike A p q) : Alike A p.afterResult q.afterResult := by
  obtain ⟨g, o, rfl, hg⟩ := h
  simp only [Player.afterResult, veil_data, veil_usrInput, veil_advGrid, veil_advBoats]
  by_cases hforfeit : p.data = FORFEIT
  · simp only [if_pos hforfeit]
    exact ⟨g, _, rfl, hg⟩
  · simp only [if_neg hforfeit]
    cases cell? p.usrInput with
    | none => exact ⟨g, _, rfl, hg⟩
    | some c =>
      by_cases hhit : p.data = GridState.boat.toByte
      · by_cases hover : p.advBoats - 1 = 0
        · simp only [if_pos hhit, print_advBoats, if_pos hover]
          exact ⟨g, _, rfl, hg⟩
        · simp only [if_pos hhit, print_advBoats, if_neg hover]
          exact ⟨g, _, rfl, hg⟩
      · by_cases hover : p.advBoats = 0
        · simp only [if_neg hhit, print_advBoats, veil_advBoats, if_pos hover]
          exact ⟨g, _, rfl, hg⟩
        · simp only [if_neg hhit, print_advBoats, veil_advBoats, if_neg hover]
          exact ⟨g, _, rfl, hg⟩

theorem Alike.afterShot (h : Alike A p q)
    (hc : p.data ≠ FORFEIT → ∀ c ∈ cell? p.data, c ∈ A) : Alike A p.afterShot q.afterShot := by
  obtain ⟨g, o, rfl, hg⟩ := h
  simp only [Player.afterShot, veil_data]
  split_ifs with hforfeit
  · exact ⟨g, _, rfl, hg⟩
  · cases hcell : cell? p.data with
    | none => exact ⟨g, _, rfl, hg⟩
    | some c =>
      -- the one place where the own grid is read
      simp only [veil_userGrid, hg c (hc hforfeit c hcell)]
      split_ifs
      · exact ⟨_, _, rfl, alike_update hg .sunkenBoat⟩
      · exact ⟨_, _, rfl, alike_update hg .missedShot⟩

theorem Alike.afterReply (h : Alike A p q) : Alike A p.afterReply q.afterReply := by
  obtain ⟨g, o, rfl, hg⟩ := h
  have hprint : ∀ (r : Player) (items : List Printed), (r.print items).userBoats = r.userBoats :=
    fun _ _ => rfl
  simp only [Player.afterReply, hprint, veil_userBoats]
  split_ifs
  · exact ⟨g, _, rfl, hg⟩
  · exact ⟨g, _, rfl, hg⟩

theorem Alike.sent (h : Alike A p q) (what : Sending) : Alike A (p.sent what) (q.sent what) := by
  cases what with
  | shot =>
    obtain ⟨g, o, rfl, hg⟩ := h
    exact ⟨g, o, rfl, hg⟩
  | result => exact h.afterReply
  | forfeit =>
    obtain ⟨g, o, rfl, hg⟩ := h
    exact ⟨g, _, rfl, hg⟩

theorem Alike.retry (h : Alike A p q) (e : ℕ) (what : Sending) (retryCount : ℕ) :
    Alike A (Player.retry {p with errno := e} what retryCount)
      (Player.retry {q with errno := e} what retryCount) := by
  obtain ⟨g, o, rfl, hg⟩ := h
  simp only [Player.retry]
  split_ifs
  · cases what with
    | shot => exact ⟨g, _, rfl, hg⟩
    | result => exact afterReply ⟨g, _, rfl, hg⟩
    | forfeit => exact ⟨g, _, rfl, hg⟩
  · exact ⟨g, o, rfl, hg⟩

theorem Alike.socketRecv (h : Alike A p q) (r : Recv) :
    Alike A (p.socketRecv r).1 (q.socketRecv r).1 ∧ (q.socketRecv r).2 = (p.socketRecv r).2 := by
  obtain ⟨g, o, rfl, hg⟩ := h
  cases r with
  | byte b =>
    simp only [Player.socketRecv, veil_errno]
    split_ifs
    · exact ⟨⟨g, o, rfl, hg⟩, rfl⟩
    · exact ⟨⟨g, o, rfl, hg⟩, rfl⟩
  | closed =>
    simp only [Player.socketRecv, veil_errno]
    split_ifs
    · exact ⟨⟨g, o, rfl, hg⟩, rfl⟩
    · exact ⟨⟨g, _, rfl, hg⟩, rfl⟩
  | error e =>
    simp only [Player.socketRecv]
    split_ifs
    · exact ⟨⟨g, o, rfl, hg⟩, rfl⟩
    · exact ⟨⟨g, _, rfl, hg⟩, rfl⟩

theorem Alike.resultReceived (h : Alike A p q) (r : Recv) :
    Alike A (Player.resultReceived (p.socketRecv r)) (Player.resultReceived (q.socketRecv r)) := by
  obtain ⟨halike, hres⟩ := h.socketRecv r
  simp only [Player.resultReceived, hres]
  split_ifs
  · obtain ⟨g, o, hq, hg⟩ := halike
    rw [hq]
    exact ⟨g, o, rfl, hg⟩
  · exact halike.afterResult

theorem Alike.shotReceived (h : Alike A p q) {r : Recv} (hpc : p.pc = .recvShot)
    (hasks : ∀ c ∈ p.asks (.recv r), c ∈ A) :
    Alike A (Player.shotReceived (p.socketRecv r)) (Player.shotReceived (q.socketRecv r)) := by
  obtain ⟨halike, hres⟩ := h.socketRecv r
  simp only [Player.shotReceived, hres]
  split_ifs with hfalse
  · obtain ⟨g, o, hq, hg⟩ := halike
    rw [hq]
    exact ⟨g, o, rfl, hg⟩
  · refine halike.afterShot fun hforfeit c hc => hasks c ?_
    cases r with
    | byte b =>
      simp only [socketRecv_byte, decide_eq_false_iff_not, not_not] at hfalse hforfeit hc
      simp only [asks, hpc, ne_eq, hfalse, hforfeit, not_false_iff, and_self, if_true]
      exact Option.mem_toList.mpr hc
    | closed => exact absurd (socketRecv_false (by simp)) hfalse
    | error e => exact absurd (socketRecv_false (by simp)) hfalse

theorem Alike.fields (h : Alike A p q) : q.pc = p.pc ∧ q.forfeitFlag = p.forfeitFlag ∧
    q.data = p.data := by
  obtain ⟨g, o, rfl, -⟩ := h
  exact ⟨rfl, rfl, rfl⟩

theorem Alike.quitGame (h : Alike A p q) : Alike A p.quitGame q.quitGame := by
  obtain ⟨g, o, rfl, hg⟩ := h
  exact ⟨g, o, rfl, hg⟩

theorem Alike.goto (h : Alike A p q) (pc : Pc) : Alike A {p with pc := pc} {q with pc := pc} := by
  obtain ⟨g, o, rfl, hg⟩ := h
  exact ⟨g, o, rfl, hg⟩

theorem Alike.fail (h : Alike A p q) (e : ℕ) : Alike A {p with errno := e} {q with errno := e} := by
  obtain ⟨g, o, rfl, hg⟩ := h
  exact ⟨g, o, rfl, hg⟩

theorem Alike.posts (h : Alike A p q) (a : Act) : q.posts a = p.posts a := by
  obtain ⟨g, o, rfl, -⟩ := h
  cases a <;> rfl

theorem Alike.step {a : Act} (h : Alike A p q) (hasks : ∀ c ∈ p.asks a, c ∈ A)
    (hstep : p.step a = some p') : ∃ q', q.step a = some q' ∧ Alike A p' q' := by
  obtain ⟨hpc, hflag, -⟩ := h.fields
  cases a with
  | tau =>
    cases hp : p.pc <;> simp only [Player.step, hp, Option.some.injEq, reduceCtorEq] at hstep <;>
      subst hstep <;> simp only [Player.step, hpc, hp, Option.some.injEq, exists_eq_left']
    case head => exact h.loopHead
    case flagTest hexValue => exact h.testFlag hexValue
    case recvShotFailed =>
      by_cases hset : p.forfeitFlag
      · simp only [shotFailed, hflag, hset, if_true]
        simpa only [hflag, hset] using h.goto (.send .forfeit 0)
      · simp only [shotFailed, hflag, hset]
        exact h.goto (.ended .failure)
  | input c =>
    cases hp : p.pc <;> simp only [Player.step, hp, Option.some.injEq, reduceCtorEq] at hstep <;>
      subst hstep <;> simp only [Player.step, hpc, hp, Option.some.injEq, exists_eq_left']
    case getchar => exact h.goto _
    case clearBuffer hexValue => exact h.clearBuffer hexValue c
  | sigtstp =>
    have hrunning : q.running ↔ p.running := by simp only [running, hpc]
    simp only [Player.step, hrunning] at hstep ⊢
    split_ifs at hstep ⊢
    cases hstep
    exact ⟨q.quitGame, rfl, h.quitGame⟩
  | interrupt =>
    have hnext := h.quitGame.fail EINTR
    cases hp : p.pc <;>
      simp only [Player.step, Player.quitGame, hp, Option.some.injEq, reduceCtorEq] at hstep <;>
      subst hstep <;>
      simp only [Player.step, Player.quitGame, hpc, hp, Option.some.injEq, exists_eq_left']
    case getchar => exact hnext.goto _
    case clearBuffer hexValue =>
      simpa only [Player.quitGame, hpc, hp] using hnext.clearBuffer hexValue EOF
    case recvResult =>
      simpa only [Player.quitGame, hpc, hp] using hnext.resultReceived (.error EINTR)
    case recvShot =>
      simpa only [Player.quitGame, hpc, hp] using
        hnext.shotReceived (r := .error EINTR) hp fun c hc => absurd hc List.not_mem_nil
  | sendOk =>
    cases hp : p.pc <;> simp only [Player.step, hp, Option.some.injEq, reduceCtorEq] at hstep
    case send what retryCount =>
      subst hstep
      simp only [Player.step, hpc, hp, Option.some.injEq, exists_eq_left']
      exact h.sent what
  | sendErr e =>
    cases hp : p.pc <;> simp only [Player.step, hp, Option.some.injEq, reduceCtorEq] at hstep
    case send what retryCount =>
      subst hstep
      simp only [Player.step, hpc, hp, Option.some.injEq, exists_eq_left']
      exact h.retry e what retryCount
  | sigpipe =>
    cases hp : p.pc <;> simp only [Player.step, hp, Option.some.injEq, reduceCtorEq] at hstep
    case send what retryCount =>
      subst hstep
      simp only [Player.step, hpc, hp, Option.some.injEq, exists_eq_left']
      exact h.goto _
  | recv r =>
    cases hp : p.pc <;> simp only [Player.step, hp, Option.some.injEq, reduceCtorEq] at hstep <;>
      subst hstep <;> simp only [Player.step, hpc, hp, Option.some.injEq, exists_eq_left']
    case recvResult => exact h.resultReceived r
    case recvShot => exact h.shotReceived hp hasks

/-- Nothing a peer does tells two players apart that agree on the cells it shoots at. -/
theorem alike_run {g g' : Grid} {server : Bool} {errno : ℕ} {acts : List Act}
    (hrun : Run.exec Player.step (start g server errno) acts = some p)
    (hagree : ∀ c ∈ asked (start g server errno) acts, g' c = g c) :
    (∃ q, Run.exec Player.step (start g' server errno) acts = some q ∧
      Alike {c | g' c = g c} p q) ∧
    wire (start g' server errno) acts = wire (start g server errno) acts := by
  have hstart : Alike {c | g' c = g c} (start g server errno) (start g' server errno) :=
    alike_start (fun _ hc => hc) server errno
  have hmeets := Run.meets_of_observe hagree
  constructor
  · exact Run.exec_simulates (fun _ _ _ _ h hG hs => h.step hG hs) hstart hmeets hrun
  · exact Run.observe_lockstep (fun _ _ _ _ h hG hs => h.step hG hs) (fun _ _ a h => h.posts a)
      hstart hmeets hrun

/-! ### The answers tell the cells apart -/

end Player

/-- The connection takes what it is given. -/
def Act.Delivers : Act → Prop
  | .sendErr _ | .sigpipe => False
  | _ => True

namespace Player

variable {p q p' : Player}

theorem step_asks {a : Act} (haimed : p.Aimed) (hstep : p.step a = some p') :
    p.asks a = [] ∧ p'.userGrid = p.userGrid ∨ ∃ c, p.asks a = [c] ∧ Attacked p c p' := by
  by_cases hshot : ∃ c, a = .recv (.byte (cellByte c)) ∧ p.pc = .recvShot ∧ p.errno ≠ EINTR
  · obtain ⟨c, rfl, hpc, herrno⟩ := hshot
    refine Or.inr ⟨c, ?_, ?_⟩
    · simp [asks, hpc, herrno, cellByte_ne_forfeit]
    · simp only [step, hpc, Option.some.injEq] at hstep
      rw [← hstep, shotReceived, socketRecv_byte]
      simpa [herrno] using afterShot_received p c
  · have hnone : p.asks a = [] := by
      unfold asks
      split
      · split_ifs with hc
        · rename_i b
          cases hcell : cell? b with
          | none => rfl
          | some c => exact absurd ⟨c, by rw [cell?_eq_some hcell], hc.1, hc.2.1⟩ hshot
        · rfl
      · rfl
    refine Or.inl ⟨hnone, ?_⟩
    obtain ⟨hmove, -⟩ := step_move haimed hstep
    cases hmove with
    | idle _ same => exact same.userGrid
    | leave _ same => exact same.userGrid
    | abort _ _ same => exact same.userGrid
    | shoot => rfl
    | answered _ _ _ _ _ _ _ done => exact done.userGrid
    | attacked c src errno =>
      have hpc : p.pc = .recvShot := by
        cases hp : p.pc <;> simp [step, hp] at hstep
        · simp [phase, hp] at src
        · rfl
      exact absurd ⟨c, rfl, hpc, errno⟩ hshot
    | overrun _ _ _ _ _ same => exact same.userGrid
    | triumph _ _ same => exact same.userGrid
    | reply _ _ done => exact done.userGrid
    | replyFailed _ _ _ _ done => exact done.userGrid
    | resign _ _ _ same => exact same.userGrid

theorem wire_ne_of_reply {k : ℕ} (hp : p.pc = .send .result k) (hq : q.pc = .send .result k)
    (hdata : q.data ≠ p.data) {acts : List Act} (hacts : ∀ a ∈ acts, a.Delivers)
    (hrun : Run.exec step p acts = some p') (hend : p'.phase ≠ .reply) :
    wire q acts ≠ wire p acts := by
  induction acts generalizing p q with
  | nil =>
    cases hrun
    simp [phase, hp] at hend
  | cons a acts ih =>
    obtain ⟨r, hr, hrest⟩ := Run.exec_cons_some hrun
    have ha := hacts a (List.mem_cons_self ..)
    have hacts' := fun f hf => hacts f (List.mem_cons_of_mem _ hf)
    cases a with
    | sendOk =>
      simp only [step, hp, Option.some.injEq] at hr
      intro heq
      simp only [wire, Run.observe, posts, hp, hq, List.cons_append, List.cons.injEq] at heq
      exact hdata heq.1
    | sigtstp =>
      have hrp : p.running := by simp [running, hp]
      have hrq : q.running := by simp [running, hq]
      simp only [step, if_pos hrp, Option.some.injEq] at hr
      subst hr
      have hstep : q.step .sigtstp = some q.quitGame := by simp only [step, if_pos hrq]
      have hstep' : p.step .sigtstp = some p.quitGame := by simp only [step, if_pos hrp]
      rw [wire, wire, Run.observe_cons hstep, Run.observe_cons hstep']
      exact ih (p := p.quitGame) (q := q.quitGame) hp hq hdata hacts' hrest
    | tau => simp [step, hp] at hr
    | input c => simp [step, hp] at hr
    | interrupt => simp [step, hp, quitGame] at hr
    | recv r => simp [step, hp] at hr
    | sendErr e => exact absurd ha id
    | sigpipe => exact absurd ha id

theorem Alike.asks (h : Alike A p q) (a : Act) : q.asks a = p.asks a := by
  obtain ⟨g, o, rfl, -⟩ := h
  rfl

theorem step_of_asks {a : Act} {c : Cell} (h : p.asks a = [c]) : ∃ p', p.step a = some p' := by
  unfold asks at h
  split at h
  · split_ifs at h with hc
    · rename_i b
      exact ⟨shotReceived (p.socketRecv (.byte b)), by simp only [step, hc.1]⟩
  · cases h

theorem agree_of_wire {g g' : Grid} (hwater : ∀ c, g' c ≠ g c → (g' c = .boat ↔ g c ≠ .boat))
    (hp : p.Aimed) (hq : q.Aimed) (halike : Alike {c | g' c = g c} p q)
    (hapart : ∀ c, g' c ≠ g c → p.userGrid c = g c ∧ q.userGrid c = g' c)
    {acts : List Act} (hacts : ∀ a ∈ acts, a.Delivers) (hrun : Run.exec step p acts = some p')
    (hend : p'.phase ≠ .reply) (hwire : wire q acts = wire p acts) :
    ∀ c ∈ asked p acts, g' c = g c := by
  induction acts generalizing p q with
  | nil => exact fun c hc => absurd hc List.not_mem_nil
  | cons a acts ih =>
    obtain ⟨r, hr, hrest⟩ := Run.exec_cons_some hrun
    have hacts' := fun f hf => hacts f (List.mem_cons_of_mem _ hf)
    obtain ⟨u, hu⟩ : ∃ u, q.step a = some u := by
      rcases step_asks hp hr with ⟨hnone, -⟩ | ⟨c, hc, -⟩
      · obtain ⟨u, hu, -⟩ := halike.step (by simp [hnone]) hr
        exact ⟨u, hu⟩
      · exact step_of_asks ((halike.asks a).trans hc)
    have hr' := (step_move hp hr).2
    have hu' := (step_move hq hu).2
    have hrest' : wire u acts = wire r acts := by
      rw [wire, wire, Run.observe_cons hu, Run.observe_cons hr, halike.posts a] at hwire
      exact List.append_cancel_left hwire
    have hcells : asked p (a :: acts) = p.asks a ++ asked r acts := Run.observe_cons hr acts
    have hfirst : ∀ c ∈ p.asks a, g' c = g c := by
      rcases step_asks hp hr with ⟨hnone, -⟩ | ⟨c, hc, hdone⟩
      · simp [hnone]
      · rcases step_asks hq hu with ⟨hnone, -⟩ | ⟨c', hc', hdone'⟩
        · simp [halike.asks, hc] at hnone
        · obtain rfl : c = c' := by simpa [halike.asks, hc] using hc'
          -- the two answers to a shot at a cell where the boards differ are 1 and 2
          by_contra hne
          have hdiff : g' c ≠ g c := by simpa [hc] using hne
          obtain ⟨hgp, hgq⟩ := hapart c hdiff
          have hdata : u.data ≠ r.data := by
            rw [hdone.data, hdone'.data, hgp, hgq]
            by_cases hboat : g c = .boat
            · have hboat' : g' c ≠ .boat := fun h => (hwater c hdiff).mp h hboat
              simp [hboat, hboat', GridState.toByte]
            · have hboat' : g' c = .boat := (hwater c hdiff).mpr hboat
              simp [hboat, hboat', GridState.toByte]
          exact wire_ne_of_reply hdone.pc hdone'.pc hdata hacts' hrest hend hrest'
    obtain ⟨u', hu₂, hnext⟩ := halike.step hfirst hr
    obtain rfl : u' = u := Option.some.inj (hu₂.symm.trans hu)
    intro c hc
    rw [hcells, List.mem_append] at hc
    rcases hc with hc | hc
    · exact hfirst c hc
    · refine ih hr' hu' hnext (fun d hd => ?_) hacts' hrest hrest' c hc
      obtain ⟨hgp, hgq⟩ := hapart d hd
      have hkept : ∀ {x x' : Player}, x.asks a = p.asks a →
          (x.asks a = [] ∧ x'.userGrid = x.userGrid ∨ ∃ c, x.asks a = [c] ∧ Attacked x c x') →
          x'.userGrid d = x.userGrid d := by
        rintro x x' hasks (⟨-, hsame⟩ | ⟨e, he, hdone⟩)
        · rw [hsame]
        · have hde : d ≠ e := by
            rintro rfl
            exact hd (hfirst d (by simp [← hasks, he]))
          rw [hdone.userGrid, Function.update_of_ne hde]
      exact ⟨(hkept rfl (step_asks hp hr)).trans hgp,
        (hkept (halike.asks a) (step_asks hq hu)).trans hgq⟩

/-- What the bytes sent to a peer tell it about the board: the cells it shot at, each of
which shows once its answer is out, and no others. -/
theorem wire_eq_iff_agree (b b' : Board) (server : Bool) (errno : ℕ) {acts : List Act}
    (hrun : Run.exec step (start b.grid server errno) acts = some p) :
    ((∀ c ∈ asked (start b.grid server errno) acts, b'.grid c = b.grid c) →
      (∃ q, Run.exec step (start b'.grid server errno) acts = some q ∧ q.pc = p.pc) ∧
      wire (start b'.grid server errno) acts = wire (start b.grid server errno) acts) ∧
    ((∀ a ∈ acts, a.Delivers) → p.phase ≠ .reply →
      wire (start b'.grid server errno) acts = wire (start b.grid server errno) acts →
      ∀ c ∈ asked (start b.grid server errno) acts, b'.grid c = b.grid c) := by
  constructor
  · intro hagree
    obtain ⟨⟨q, hq, halike⟩, hwire⟩ := alike_run hrun hagree
    exact ⟨⟨q, hq, halike.fields.1⟩, hwire⟩
  · intro hacts hend hwire
    have hwater : ∀ c, b'.grid c ≠ b.grid c → (b'.grid c = .boat ↔ b.grid c ≠ .boat) := by
      intro c hne
      constructor
      · rintro h' h
        exact hne (h'.trans h.symm)
      · intro h
        by_contra h'
        exact hne ((b'.grid_placed.water c h').trans (b.grid_placed.water c h).symm)
    exact agree_of_wire hwater (aimed_start _ _ _) (aimed_start _ _ _)
      (alike_start (fun _ hc => hc) server errno) (fun _ _ => ⟨rfl, rfl⟩) hacts hrun hend hwire

def lastCells : Board := ⟨fun c => if 12 < c.val then .boat else .default, [13, 14, 15], by decide⟩

def firstShot : List Act := [.tau, .recv (.byte 0#8), .sendOk]

theorem wire_ne_firstShot :
    wire (start lastCells.grid false 0) firstShot ≠ wire (start firstCells.grid false 0) firstShot := by
  intro heq
  have hrun : Run.exec step (start firstCells.grid false 0) firstShot = some _ := rfl
  have hshown := (wire_eq_iff_agree firstCells lastCells false 0 hrun).2
    (by simp [firstShot, Act.Delivers]) (by decide) heq
  exact absurd (hshown 0 (by decide)) (by decide)

end Player
namespace Game

/-- The cell of its own grid that `s` is asked for. -/
def asks (s : Side) (g : Game) (e : Side × Act) : List Cell :=
  if e.1 = s then (g.party s).asks e.2 else []

/-- Two matches that differ at most in the own grid of `s`, outside `A`, and its screen. -/
structure Alike (s : Side) (A : Set Cell) (g k : Game) : Prop where
  party : Player.Alike A (g.party s) (k.party s)
  other : k.party s.other = g.party s.other
  sent : k.sent = g.sent
  taken : k.taken = g.taken

/-- What becomes of the streams, given the player after its step. -/
def post (g : Game) (e : Side × Act) (p : Player) : Game := match e.2, (g.party e.1).pc with
  | .sendOk, .send what _ => g.send e.1 p ⟨what, (g.party e.1).sendByte what⟩
  | .recv (.byte _), _ => g.consume e.1 p
  | _, _ => g.move e.1 p

theorem step_eq_some {g g' : Game} {e : Side × Act} : g.step e = some g' ↔
    g.Allowed e.1 e.2 ∧ ∃ p, (g.party e.1).step e.2 = some p ∧ g.post e p = g' := by
  by_cases h : g.Allowed e.1 e.2
  · rw [step, if_pos h]
    simp only [h, true_and, Option.map_eq_some_iff]
    rfl
  · simp [step, h]

variable {s : Side} {A : Set Cell} {g k g' : Game} {e : Side × Act}

theorem Alike.fields (h : Alike s A g k) (t : Side) : (k.party t).pc = (g.party t).pc ∧
    ∀ what, (k.party t).sendByte what = (g.party t).sendByte what := by
  rcases s.eq_or_other t with rfl | rfl
  · obtain ⟨hpc, -, hdata⟩ := h.party.fields
    refine ⟨hpc, fun what => ?_⟩
    cases what with
    | shot => exact hdata
    | result => exact hdata
    | forfeit => rfl
  · rw [h.other]
    exact ⟨rfl, fun _ => rfl⟩

theorem Alike.allowed (h : Alike s A g k) (t : Side) (a : Act) : k.Allowed t a ↔ g.Allowed t a := by
  have hnext : k.next t = g.next t := by simp only [Net.next, h.sent, h.taken]
  have hpc := fun u => (h.fields u).1
  cases a with
  | recv r => cases r <;> simp only [Allowed, hnext, Player.closed, hpc]
  | interrupt => simp only [Allowed, hnext, Player.closed, Player.receiving, hpc]
  | sigpipe => simp only [Allowed, Player.closed, hpc]
  | tau => rfl
  | input c => rfl
  | sigtstp => rfl
  | sendOk => rfl
  | sendErr n => rfl

theorem Alike.update {p q : Player} (h : Alike s A g k) {t : Side}
    (hp : t = s → Player.Alike A p q) (hother : t = s.other → q = p) :
    Player.Alike A (Function.update g.party t p s) (Function.update k.party t q s) ∧
      Function.update k.party t q s.other = Function.update g.party t p s.other := by
  rcases s.eq_or_other t with rfl | rfl
  · simpa [h.other] using hp rfl
  · simpa [hother rfl] using h.party

theorem Alike.post {p q : Player} (h : Alike s A g k)
    (hp : e.1 = s → Player.Alike A p q) (hother : e.1 = s.other → q = p) :
    Alike s A (g.post e p) (k.post e q) := by
  obtain ⟨hparty, hsame⟩ := h.update hp hother
  obtain ⟨hpc, hbyte⟩ := h.fields e.1
  have hmove : Alike s A (g.move e.1 p) (k.move e.1 q) := ⟨hparty, hsame, h.sent, h.taken⟩
  have hconsume : Alike s A (g.consume e.1 p) (k.consume e.1 q) :=
    ⟨hparty, hsame, h.sent, by simp only [Net.consume, h.taken]⟩
  have hsend : ∀ m, Alike s A (g.send e.1 p m) (k.send e.1 q m) := fun m =>
    ⟨hparty, hsame, by simp only [Net.send, h.sent], h.taken⟩
  obtain ⟨t, a⟩ := e
  cases a with
  | sendOk =>
    cases hg : (g.party t).pc <;> simp only [Game.post, hpc, hg, hbyte]
    case send what k => exact hsend _
    all_goals exact hmove
  | recv r => cases r with
    | byte b => simpa only [Game.post] using hconsume
    | closed => simpa only [Game.post] using hmove
    | error e => simpa only [Game.post] using hmove
  | tau => simpa only [Game.post] using hmove
  | input c => simpa only [Game.post] using hmove
  | sigtstp => simpa only [Game.post] using hmove
  | interrupt => simpa only [Game.post] using hmove
  | sendErr e => simpa only [Game.post] using hmove
  | sigpipe => simpa only [Game.post] using hmove

theorem Alike.step (h : Alike s A g k) (hasks : ∀ c ∈ asks s g e, c ∈ A)
    (hstep : g.step e = some g') : ∃ k', k.step e = some k' ∧ Alike s A g' k' := by
  obtain ⟨hallowed, p, hp, rfl⟩ := step_eq_some.mp hstep
  have hallowed' := (h.allowed e.1 e.2).mpr hallowed
  rcases s.eq_or_other e.1 with hs | hs
  · have hasks' : ∀ c ∈ (g.party s).asks e.2, c ∈ A := by simpa [asks, hs] using hasks
    rw [hs] at hp
    obtain ⟨q, hq, hpq⟩ := h.party.step hasks' hp
    refine ⟨k.post e q, step_eq_some.mpr ⟨hallowed', q, hs ▸ hq, rfl⟩,
      h.post (fun _ => hpq) fun ho => ?_⟩
    exact absurd (hs.symm.trans ho) (by simp)
  · refine ⟨k.post e p, step_eq_some.mpr ⟨hallowed', p, ?_, rfl⟩,
      h.post (fun ho => ?_) fun _ => rfl⟩
    · rw [hs] at hp ⊢
      rw [h.other]
      exact hp
    · exact absurd (ho.symm.trans hs) (by simp)

/-- Whatever happens in a match, the opponent is left with the same state, the same screen
and the same messages by every board that agrees with `s`'s own on the cells shot at. -/
theorem opponent_sees_shots (board : Side → Board) (b : Board) (s : Side) (errno : Side → ℕ)
    {es : List (Side × Act)} {g : Game} (hrun : Run.exec step (start board errno) es = some g)
    (hagree : ∀ c ∈ Run.observe step (asks s) (start board errno) es,
      b.grid c = (board s).grid c) :
    ∃ k, Run.exec step (start (Function.update board s b) errno) es = some k ∧
      k.party s.other = g.party s.other ∧ k.sent = g.sent ∧ k.taken = g.taken ∧
      (k.party s).pc = (g.party s).pc := by
  have hstart : Alike s {c | b.grid c = (board s).grid c} (start board errno)
      (start (Function.update board s b) errno) := by
    refine ⟨?_, ?_, rfl, rfl⟩
    · simp only [start, Function.update_self]
      exact Player.alike_start (fun _ hc => hc) _ _
    · simp [start]
  obtain ⟨k, hk, halike⟩ := Run.exec_simulates (fun _ _ _ _ h hG hs => h.step hG hs) hstart
    (Run.meets_of_observe hagree) hrun
  exact ⟨k, hk, halike.other, halike.sent, halike.taken, (halike.fields s).1⟩

/- The server's shot at cell 3 goes into the water of either board. -/
def missedShot : List (Side × Act) :=
  shootAt server 51 ++ [(server, .sendOk), (client, .tau), (client, .recv (.byte 3#8)),
    (client, .sendOk), (server, .recv (.byte 2#8))]

theorem server_sees_shots : ∃ g,
    Run.exec step (start (fun _ => Player.firstCells) fun _ => 0) missedShot = some g ∧
    ∃ k, Run.exec step (start (Function.update (fun _ => Player.firstCells) client
        Player.lastCells) fun _ => 0) missedShot = some k ∧
      k.party server = g.party server ∧ k.sent = g.sent ∧ k.taken = g.taken ∧
      (k.party client).pc = (g.party client).pc :=
  ⟨_, rfl, opponent_sees_shots (fun _ => Player.firstCells) Player.lastCells client (fun _ => 0)
    rfl (by decide)⟩

end Game

end SyeLabs.Battleship
