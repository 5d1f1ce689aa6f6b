import SyeLabs.Battleship.SocketRecv
import SyeLabs.Library.Run

/-!
# `socketSend`

A step is a call of `send` and what the loop does with its result. What the calls have
accepted so far is `wire`.
-/

namespace SyeLabs.Battleship

open ByteMemory (Memory read read_length read_add)

/-- A result of `send`: a positive count, or -1 with its `errno`. -/
inductive SendResult where
  | sent (count : ℕ)
  | error (e : ℕ)
  deriving DecidableEq

def SendResult.failed : SendResult → Bool
  | .sent _ => false
  | .error _ => true

/-- `ret` is `none` inside the loop. -/
structure SendState where
  totalBytesSent : ℕ
  retryCount : ℕ
  ret : Option ℤ
  wire : List Byte
  errno : ℕ
  out : List SocketText

namespace SendState

variable (mem : Memory) (buf size : ℕ) (s : SendState)

/-- The condition of the loop. -/
def loopTest : SendState := if s.totalBytesSent < size then s else {s with ret := some 0}

def start (errno : ℕ) : SendState :=
  if buf = NULL then ⟨0, 0, some (-1), [], errno, [.sendNullBuffer]⟩
  else (⟨0, 0, none, [], errno, []⟩ : SendState).loopTest size

/-- `send` accepts no more than it is offered. -/
def step : SendResult → Option SendState
  | .sent count =>
    if s.ret = none ∧ 1 ≤ count ∧ count ≤ size - s.totalBytesSent then
      some (({s with
        wire := s.wire ++ read mem (buf + s.totalBytesSent) count
        totalBytesSent := s.totalBytesSent + count
        retryCount := 0} : SendState).loopTest size)
    else none
  | .error e =>
    if s.ret = none then
      let s := {s with errno := e, retryCount := s.retryCount + 1}
      if s.retryCount > SEND_RETRY_LIMIT then
        some {s with ret := some (-1), out := s.out ++ [.text .sendFail]}
      else some (s.loopTest size)
    else none

/-- Of the results so far, how many failures stand at the end. -/
def trailing (results : List SendResult) : ℕ :=
  (results.reverse.takeWhile SendResult.failed).length

/-- Somewhere `SEND_RETRY_LIMIT` + 1 calls in a row have failed. -/
def FailsRepeatedly (results : List SendResult) : Prop :=
  ∃ before failures after, results = before ++ failures ++ after ∧
    failures.length = SEND_RETRY_LIMIT + 1 ∧ ∀ r ∈ failures, r.failed

variable {mem buf size s} {s' : SendState}

theorem trailing_error (results : List SendResult) (e : ℕ) :
    trailing (results ++ [.error e]) = trailing results + 1 := by
  rw [trailing, List.reverse_append]
  rfl

theorem trailing_sent (results : List SendResult) (count : ℕ) :
    trailing (results ++ [.sent count]) = 0 := by
  rw [trailing, List.reverse_append]
  rfl

theorem le_trailing_append {failures : List SendResult} (h : ∀ r ∈ failures, r.failed)
    (before : List SendResult) : failures.length ≤ trailing (before ++ failures) := by
  rw [trailing, List.reverse_append, List.takeWhile_append_of_pos, List.length_append,
    List.length_reverse]
  · exact Nat.le_add_right _ _
  · exact fun r hr => h r (List.mem_reverse.mp hr)

theorem trailing_failures (results : List SendResult) :
    ∃ before failures, results = before ++ failures ∧ failures.length = trailing results ∧
      ∀ r ∈ failures, r.failed := by
  refine ⟨(results.reverse.dropWhile SendResult.failed).reverse,
    (results.reverse.takeWhile SendResult.failed).reverse, ?_, List.length_reverse, ?_⟩
  · rw [← List.reverse_append, List.takeWhile_append_dropWhile, List.reverse_reverse]
  · intro r hr
    exact List.all_eq_true.mp List.all_takeWhile r (List.mem_reverse.mp hr)

/-! ### The loop -/

theorem step_sent {count : ℕ} (h : s.step mem buf size (.sent count) = some s') :
    s.ret = none ∧ 1 ≤ count ∧ count ≤ size - s.totalBytesSent ∧
      s' = ({s with
        wire := s.wire ++ read mem (buf + s.totalBytesSent) count
        totalBytesSent := s.totalBytesSent + count
        retryCount := 0} : SendState).loopTest size := by
  simp only [step] at h
  split_ifs at h with hcount
  exact ⟨hcount.1, hcount.2.1, hcount.2.2, (Option.some.inj h).symm⟩

theorem step_error {e : ℕ} (h : s.step mem buf size (.error e) = some s') :
    s.ret = none ∧
      ((SEND_RETRY_LIMIT ≤ s.retryCount ∧ s' = {s with
        errno := e
        retryCount := s.retryCount + 1
        ret := some (-1)
        out := s.out ++ [.text .sendFail]}) ∨
      (s.retryCount < SEND_RETRY_LIMIT ∧
        s' = ({s with errno := e, retryCount := s.retryCount + 1} : SendState).loopTest size)) := by
  simp only [step] at h
  split_ifs at h with hret hlimit
  · exact ⟨hret, .inl ⟨by omega, (Option.some.inj h).symm⟩⟩
  · exact ⟨hret, .inr ⟨by omega, (Option.some.inj h).symm⟩⟩

/-- Inside the loop, after the whole buffer, or after one failure too many. -/
def Stands (size : ℕ) (s : SendState) : Prop :=
  (s.ret = none ∧ s.totalBytesSent < size ∧ s.retryCount ≤ SEND_RETRY_LIMIT) ∨
  (s.ret = some 0 ∧ s.totalBytesSent = size ∧ s.retryCount ≤ SEND_RETRY_LIMIT) ∨
  (s.ret = some (-1) ∧ s.totalBytesSent < size ∧ s.retryCount = SEND_RETRY_LIMIT + 1)

structure Inv (mem : Memory) (buf size : ℕ) (s : SendState) (results : List SendResult) :
    Prop where
  stands : Stands size s
  wire : s.wire = read mem buf s.totalBytesSent
  retries : s.retryCount = trailing results

theorem stands_loopTest (hret : s.ret = none) (hle : s.totalBytesSent ≤ size)
    (hretry : s.retryCount ≤ SEND_RETRY_LIMIT) : Stands size (s.loopTest size) := by
  unfold loopTest
  split_ifs with h
  · exact .inl ⟨hret, h, hretry⟩
  · exact .inr (.inl ⟨rfl, by simp only; omega, hretry⟩)

theorem loopTest_wire : (s.loopTest size).wire = s.wire := by
  unfold loopTest
  split_ifs <;> rfl

theorem loopTest_sent : (s.loopTest size).totalBytesSent = s.totalBytesSent := by
  unfold loopTest
  split_ifs <;> rfl

theorem loopTest_retries : (s.loopTest size).retryCount = s.retryCount := by
  unfold loopTest
  split_ifs <;> rfl

theorem Stands.of_none (h : Stands size s) (hret : s.ret = none) :
    s.totalBytesSent < size ∧ s.retryCount ≤ SEND_RETRY_LIMIT := by
  rcases h with ⟨_, h⟩ | ⟨hzero, _⟩ | ⟨hfailed, _⟩
  · exact h
  · rw [hret] at hzero
    cases hzero
  · rw [hret] at hfailed
    cases hfailed

theorem inv_start (errno : ℕ) (hbuf : buf ≠ NULL) : Inv mem buf size (start buf size errno) [] := by
  rw [start, if_neg hbuf]
  constructor
  · exact stands_loopTest rfl (Nat.zero_le _) (Nat.zero_le _)
  · rw [loopTest_wire, loopTest_sent]
    rfl
  · rw [loopTest_retries]
    rfl

theorem inv_step {r : SendResult} {results : List SendResult} (hs : Inv mem buf size s results)
    (h : s.step mem buf size r = some s') : Inv mem buf size s' (results ++ [r]) := by
  cases r with
  | sent count =>
    obtain ⟨hret, hpos, hle, rfl⟩ := step_sent h
    have hrun := hs.stands.of_none hret
    constructor
    · exact stands_loopTest hret (by simp only; omega) (Nat.zero_le _)
    · rw [loopTest_wire, loopTest_sent]
      simp only [hs.wire, read_add]
    · rw [loopTest_retries, trailing_sent]
  | error e =>
    obtain ⟨hret, hcases⟩ := step_error h
    have hrun := hs.stands.of_none hret
    rcases hcases with ⟨hlimit, rfl⟩ | ⟨hlimit, rfl⟩
    · constructor
      · exact .inr (.inr ⟨rfl, hrun.1, by simp only; omega⟩)
      · exact hs.wire
      · rw [trailing_error, ← hs.retries]
    · constructor
      · exact stands_loopTest hret (Nat.le_of_lt hrun.1) hlimit
      · rw [loopTest_wire, loopTest_sent]
        exact hs.wire
      · rw [loopTest_retries, trailing_error, ← hs.retries]

theorem inv_run {errno : ℕ} {results : List SendResult} (hbuf : buf ≠ NULL)
    (hrun : Run.exec (step mem buf size) (start buf size errno) results = some s) :
    Inv mem buf size s results := by
  refine Run.exec_history (inv_start errno hbuf) ?_ hrun
  intro u r u' rs hu hstep
  exact inv_step hu hstep

end SendState

namespace SendState

variable {mem : Memory} {buf size errno : ℕ} {s : SendState} {results : List SendResult}

theorem Inv.wire_eq_iff (hs : Inv mem buf size s results) :
    s.wire = read mem buf size ↔ s.totalBytesSent = size := by
  rw [hs.wire]
  constructor
  · intro h
    have hlen := congrArg List.length h
    rwa [read_length, read_length] at hlen
  · intro h
    rw [h]

theorem Inv.sent_le (hs : Inv mem buf size s results) : s.totalBytesSent ≤ size := by
  rcases hs.stands with ⟨_, h, _⟩ | ⟨_, h, _⟩ | ⟨_, h, _⟩ <;> omega

theorem Inv.wire_prefix (hs : Inv mem buf size s results) : s.wire <+: read mem buf size := by
  obtain ⟨k, hk⟩ := Nat.exists_eq_add_of_le hs.sent_le
  rw [hs.wire, hk, read_add]
  exact List.prefix_append _ _

theorem Inv.succeeded_iff (hs : Inv mem buf size s results) :
    s.ret = some 0 ↔ s.wire = read mem buf size := by
  rw [hs.wire_eq_iff]
  rcases hs.stands with ⟨hret, h, _⟩ | ⟨hret, h, _⟩ | ⟨hret, h, _⟩
  · rw [hret]
    exact ⟨fun h => (by cases h), fun h => by omega⟩
  · exact ⟨fun _ => h, fun _ => hret⟩
  · rw [hret]
    exact ⟨fun h => (by cases h), fun h => by omega⟩

theorem Inv.failed_iff (hs : Inv mem buf size s results) :
    s.ret = some (-1) ↔ SEND_RETRY_LIMIT < trailing results := by
  rw [← hs.retries]
  rcases hs.stands with ⟨hret, _, h⟩ | ⟨hret, _, h⟩ | ⟨hret, _, h⟩
  · rw [hret]
    exact ⟨fun h => (by cases h), fun h => by omega⟩
  · rw [hret]
    exact ⟨fun h => (by cases h), fun h => by omega⟩
  · exact ⟨fun _ => by omega, fun _ => hret⟩

/- No call follows the return. -/
theorem exec_of_returned {t : SendState} (h : s.ret ≠ none)
    (hrun : Run.exec (step mem buf size) s results = some t) : results = [] := by
  cases results with
  | nil => rfl
  | cons r rs =>
    obtain ⟨s', hs', _⟩ := Run.exec_cons_some hrun
    cases r with
    | sent count => exact absurd (step_sent hs').1 h
    | error e => exact absurd (step_error hs').1 h

theorem failed_iff_repeatedly (hbuf : buf ≠ NULL)
    (hrun : Run.exec (step mem buf size) (start buf size errno) results = some s) :
    s.ret = some (-1) ↔ FailsRepeatedly results := by
  have hs := inv_run hbuf hrun
  constructor
  · intro hret
    obtain ⟨before, failures, hresults, hlen, hfailed⟩ := trailing_failures results
    have htrailing : trailing results = SEND_RETRY_LIMIT + 1 := by
      rw [← hs.retries]
      rcases hs.stands with ⟨h, _⟩ | ⟨h, _⟩ | ⟨_, _, h⟩
      · rw [hret] at h
        cases h
      · rw [hret] at h
        cases h
      · exact h
    exact ⟨before, failures, [], by rw [List.append_nil, hresults], by omega, hfailed⟩
  · rintro ⟨before, failures, after, rfl, hlen, hfailed⟩
    -- the call is over with the last of these failures
    rw [Run.exec_append] at hrun
    obtain ⟨t, ht, hafter⟩ := Option.bind_eq_some_iff.mp hrun
    have hle := le_trailing_append hfailed before
    have hret := (inv_run hbuf ht).failed_iff.mpr (by omega)
    obtain rfl := exec_of_returned (by rw [hret]; exact Option.some_ne_none _) hafter
    cases hafter
    exact hret

/-- Bytes left first, then retries left. -/
def rank (size : ℕ) (s : SendState) : ℕ :=
  (size - s.totalBytesSent) * (SEND_RETRY_LIMIT + 1) + (SEND_RETRY_LIMIT + 1 - s.retryCount)

theorem rank_step {s' : SendState} {r : SendResult} (hs : Inv mem buf size s results)
    (h : s.step mem buf size r = some s') : rank size s' < rank size s := by
  cases r with
  | sent count =>
    obtain ⟨hret, hpos, hle, rfl⟩ := step_sent h
    have hrun := hs.stands.of_none hret
    simp only [rank, loopTest_sent, loopTest_retries, SEND_RETRY_LIMIT] at hrun ⊢
    omega
  | error e =>
    obtain ⟨hret, ⟨_, rfl⟩ | ⟨_, rfl⟩⟩ := step_error h
    · have hrun := hs.stands.of_none hret
      simp only [rank]
      omega
    · have hrun := hs.stands.of_none hret
      simp only [rank, loopTest_sent, loopTest_retries]
      omega

/-- Each call accepts between one byte and all that it is offered, if it does not fail. -/
def WithinOffer (mem : Memory) (buf size errno : ℕ) (results : ℕ → SendResult) : Prop :=
  ∀ k s, Run.exec (step mem buf size) (start buf size errno) ((List.range k).map results) =
    some s → s.ret = none → ∀ count, results k = .sent count →
      1 ≤ count ∧ count ≤ size - s.totalBytesSent

theorem call_goes_on {results : ℕ → SendResult} (hoffer : WithinOffer mem buf size errno results)
    {k : ℕ} (hrun : Run.exec (step mem buf size) (start buf size errno)
      ((List.range k).map results) = some s) (hret : s.ret = none) :
    ∃ s', s.step mem buf size (results k) = some s' := by
  cases hr : results k with
  | sent count =>
    have hcount := hoffer k s hrun hret count hr
    simp only [step]
    rw [if_pos ⟨hret, hcount⟩]
    exact ⟨_, rfl⟩
  | error e =>
    simp only [step]
    rw [if_pos hret]
    split_ifs <;> exact ⟨_, rfl⟩

theorem call_returns (hbuf : buf ≠ NULL) {results : ℕ → SendResult}
    (hoffer : WithinOffer mem buf size errno results) :
    ∃ k s, Run.exec (step mem buf size) (start buf size errno) ((List.range k).map results) =
      some s ∧ s.ret ≠ none := by
  apply Run.exec_ends results
  intro k t hrun hnot
  obtain ⟨t', ht'⟩ := call_goes_on hoffer hrun (not_not.mp hnot)
  exact ⟨t', ht', rank_step (inv_run hbuf hrun) ht'⟩

/- A stretch of failures in the first results is one in the sequence. -/
theorem not_repeatedly {results : ℕ → SendResult} {k : ℕ}
    (h : ∀ j, ∃ i ≤ SEND_RETRY_LIMIT, (results (j + i)).failed = false) :
    ¬ FailsRepeatedly ((List.range k).map results) := by
  rintro ⟨before, failures, after, heq, hlen, hfailed⟩
  obtain ⟨i, hi, hsent⟩ := h before.length
  have hget : ((List.range k).map results)[before.length + i]? = failures[i]? := by
    rw [heq, List.append_assoc, List.getElem?_append_right (Nat.le_add_right _ _),
      Nat.add_sub_cancel_left, List.getElem?_append_left (by omega)]
  have hin : i < failures.length := by omega
  rw [List.getElem?_eq_getElem hin] at hget
  rw [List.getElem?_map] at hget
  obtain ⟨a, ha, hres⟩ := Option.map_eq_some_iff.mp hget
  obtain ⟨_, rfl⟩ := List.getElem?_eq_some_iff.mp ha
  rw [List.getElem_range] at hres
  have hbad := hfailed _ (List.getElem_mem hin)
  rw [← hres, hsent] at hbad
  cases hbad

end SendState

open SendState

/-- The player's `socketSend` of one byte, call by call. -/
theorem player_sends (p : Player) (what : Sending) {mem : Memory} {buf : ℕ} {s : SendState}
    (hpc : p.pc = .send what s.retryCount) (hret : s.ret = none) (hsent : s.totalBytesSent = 0) :
    (∃ s', s.step mem buf 1 (.sent 1) = some s' ∧ s'.ret = some 0 ∧
      p.step .sendOk = some (p.sent what)) ∧
    ∀ e, ∃ s' p', s.step mem buf 1 (.error e) = some s' ∧ p.step (.sendErr e) = some p' ∧
      ((s'.ret = none ∧ p' = {p with errno := e, pc := .send what s'.retryCount}) ∨
        (s'.ret = some (-1) ∧
          p' = (({p with errno := e} : Player).print [.text .sendFail]).sendFailed what)) := by
  constructor
  · obtain ⟨s', hs'⟩ : ∃ s', s.step mem buf 1 (.sent 1) = some s' := by
      simp only [step]
      rw [if_pos ⟨hret, Nat.le_refl 1, by omega⟩]
      exact ⟨_, rfl⟩
    refine ⟨s', hs', ?_, by simp only [Player.step, hpc]⟩
    obtain ⟨_, _, _, rfl⟩ := step_sent hs'
    simp [loopTest]
  · intro e
    obtain ⟨s', hs'⟩ : ∃ s', s.step mem buf 1 (.error e) = some s' := by
      simp only [step]
      rw [if_pos hret]
      split_ifs <;> exact ⟨_, rfl⟩
    obtain ⟨_, ⟨hlimit, rfl⟩ | ⟨hlimit, rfl⟩⟩ := step_error hs'
    · refine ⟨_, _, hs', ?_, .inr ⟨rfl, rfl⟩⟩
      simp only [Player.step, hpc, Player.retry]
      rw [if_pos (by omega)]
    · refine ⟨_, _, hs', ?_, .inl ⟨by simp [loopTest, hsent, hret], rfl⟩⟩
      simp only [Player.step, hpc, Player.retry, loopTest_retries]
      rw [if_neg (by omega)]

end SyeLabs.Battleship
