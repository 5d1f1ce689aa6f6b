import SyeLabs.Battleship.Player
import SyeLabs.Library.ByteMemory

/-!
# `socketRecv`

The whole loop, over what each call of `recv` returns. `errno` is the variable of the
process: a call that succeeds leaves in it what an earlier failure put there.
-/

namespace SyeLabs.Battleship

open ByteMemory (Memory read write write_append write_nil write_outside)

def NULL : ℕ := 0

/-- The texts `socketRecv` and `socketSend` print. The game passes no null buffer. -/
inductive SocketText where
  | readNullBuffer
  | sendNullBuffer
  | text (s : StringsIdx)
  deriving DecidableEq

/-- A result of `recv`: the bytes of a positive count, 0, or -1 with its `errno`. -/
inductive RecvResult where
  | fragment (bytes : List Byte)
  | closed
  | error (e : ℕ)

/-- `ret` is `none` while a call of `recv` blocks. -/
structure Received where
  ret : Option ℤ
  mem : Memory
  errno : ℕ
  out : List SocketText

/-- What a call does to the memory from `dst` on and to `errno`, and what it returns. -/
def recv (mem : Memory) (dst errno : ℕ) : RecvResult → Memory × ℕ × ℤ
  | .fragment bytes => (write mem dst bytes, errno, bytes.length)
  | .closed => (mem, errno, 0)
  | .error e => (mem, e, -1)

def recvLoop (buf size totalBytesRead : ℕ) (mem : Memory) (errno : ℕ) :
    List RecvResult → Received
  | [] => ⟨if totalBytesRead < size then none else some 0, mem, errno, []⟩
  | r :: rs =>
    if totalBytesRead < size then
      let (mem, errno, bytesRead) := recv mem (buf + totalBytesRead) errno r
      if errno = EINTR then ⟨some (-1), mem, errno, []⟩
      else if bytesRead = -1 then ⟨some (-1), mem, errno, [.text .recvFail]⟩
      else if bytesRead = 0 then ⟨some (-1), mem, errno, [.text .recvConnClosed]⟩
      else recvLoop buf size (totalBytesRead + bytesRead.toNat) mem errno rs
    else ⟨some 0, mem, errno, []⟩

def socketRecv (buf size : ℕ) (mem : Memory) (errno : ℕ) (results : List RecvResult) :
    Received :=
  if buf = NULL then ⟨some (-1), mem, errno, [.readNullBuffer]⟩
  else recvLoop buf size 0 mem errno results

/-! ### What the calls delivered -/

/-- A call is offered what is left of the buffer, and a positive count is at most that. -/
def Offered : ℕ → List RecvResult → Prop
  | _, [] => True
  | left, .fragment bytes :: rs =>
    0 < left → 0 < bytes.length ∧ bytes.length ≤ left ∧ Offered (left - bytes.length) rs
  | _, _ :: _ => True

def fragments (frags : List (List Byte)) : List RecvResult := frags.map .fragment

/-- The first results are fragments that add up to the `size` bytes of `data`. -/
def Delivers (size : ℕ) (results : List RecvResult) (data : List Byte) : Prop :=
  data.length = size ∧ ∃ frags rest, results = fragments frags ++ rest ∧ data = frags.flatten

/-- A result of -1 or 0 comes before the data is complete. -/
def CutOff (size : ℕ) (results : List RecvResult) : Prop :=
  ∃ frags r rest, results = fragments frags ++ r :: rest ∧ (∀ bytes, r ≠ .fragment bytes) ∧
    frags.flatten.length < size

/-- The function succeeds exactly when the data arrives. -/
structure RecvExact (buf size : ℕ) (mem : Memory) (results : List RecvResult)
    (q : Received) : Prop where
  succeeds : q.ret = some 0 ↔ ∃ data, Delivers size results data
  stored : ∀ data, Delivers size results data → q.mem = write mem buf data
  fails : CutOff size results → q.ret = some (-1)
  within : ∀ x, x < buf ∨ buf + size ≤ x → q.mem x = mem x

variable {buf size total errno : ℕ} {mem : Memory} {results : List RecvResult}

/-! ### The loop -/

theorem recvLoop_complete (h : size ≤ total) :
    recvLoop buf size total mem errno results = ⟨some 0, mem, errno, []⟩ := by
  cases results with
  | nil => rw [recvLoop, if_neg (by omega)]
  | cons r rs => rw [recvLoop, if_neg (by omega)]

theorem recvLoop_fragment {bytes : List Byte} (h : total < size) (hpos : 0 < bytes.length)
    (herrno : errno ≠ EINTR) :
    recvLoop buf size total mem errno (.fragment bytes :: results) =
      recvLoop buf size (total + bytes.length) (write mem (buf + total) bytes) errno
        results := by
  have hcount : (bytes.length : ℤ) ≠ -1 ∧ (bytes.length : ℤ) ≠ 0 := by omega
  simp only [recvLoop, recv, h, herrno, hcount.1, hcount.2, if_true, if_false,
    Int.toNat_natCast]

/- An old `EINTR` is taken for one of this call. -/
theorem recvLoop_interrupted {bytes : List Byte} (h : total < size) (herrno : errno = EINTR) :
    recvLoop buf size total mem errno (.fragment bytes :: results) =
      ⟨some (-1), write mem (buf + total) bytes, errno, []⟩ := by
  simp only [recvLoop, recv, h, herrno, if_true]

theorem recvLoop_failure {r : RecvResult} (h : total < size)
    (hr : ∀ bytes, r ≠ .fragment bytes) :
    (recvLoop buf size total mem errno (r :: results)).ret = some (-1) ∧
      (recvLoop buf size total mem errno (r :: results)).mem = mem := by
  cases r with
  | fragment bytes => exact absurd rfl (hr bytes)
  | closed =>
    have hzero : (0 : ℤ) ≠ -1 := by decide
    simp only [recvLoop, recv, h, hzero, if_true, if_false]
    split_ifs <;> exact ⟨rfl, rfl⟩
  | error e =>
    simp only [recvLoop, recv, h, if_true]
    split_ifs <;> exact ⟨rfl, rfl⟩

theorem recvLoop_delivers {frags : List (List Byte)} (herrno : errno ≠ EINTR)
    (hoffered : Offered (size - total) (fragments frags ++ results))
    (hsize : frags.flatten.length = size - total) :
    recvLoop buf size total mem errno (fragments frags ++ results) =
      ⟨some 0, write mem (buf + total) frags.flatten, errno, []⟩ := by
  -- one fragment after the other, each at its place behind the ones before it
  induction frags generalizing total mem with
  | nil =>
    rw [List.flatten_nil, write_nil]
    simp only [List.flatten_nil, List.length_nil] at hsize
    exact recvLoop_complete (by omega)
  | cons bytes frags ih =>
    rw [List.flatten_cons, List.length_append] at hsize
    by_cases htotal : total < size
    · obtain ⟨hpos, hle, hrest⟩ := hoffered (by omega)
      have hleft : size - total - bytes.length = size - (total + bytes.length) := by omega
      rw [hleft] at hrest
      have hloop := @ih (total + bytes.length) (write mem (buf + total) bytes) hrest (by omega)
      rw [← Nat.add_assoc, write_append] at hloop
      exact (recvLoop_fragment htotal hpos herrno).trans hloop
    · have hnil : (bytes :: frags).flatten = [] := by
        rw [← List.length_eq_zero_iff, List.flatten_cons, List.length_append]
        omega
      rw [hnil, write_nil]
      exact recvLoop_complete (by omega)

theorem recvLoop_cut {frags : List (List Byte)} {r : RecvResult}
    (hoffered : Offered (size - total) (fragments frags ++ r :: results))
    (hr : ∀ bytes, r ≠ .fragment bytes) (hsize : frags.flatten.length < size - total) :
    (recvLoop buf size total mem errno (fragments frags ++ r :: results)).ret = some (-1) := by
  induction frags generalizing total mem with
  | nil => exact (recvLoop_failure (by omega) hr).1
  | cons bytes frags ih =>
    rw [List.flatten_cons, List.length_append] at hsize
    have htotal : total < size := by omega
    obtain ⟨hpos, _, hrest⟩ := hoffered (by omega)
    rw [Nat.sub_sub] at hrest
    have hloop := @ih (total + bytes.length) (write mem (buf + total) bytes) hrest (by omega)
    by_cases herrno : errno = EINTR
    · exact congrArg Received.ret (recvLoop_interrupted htotal herrno)
    · exact (congrArg Received.ret (recvLoop_fragment htotal hpos herrno)).trans hloop

theorem delivers_of_recvLoop (htotal : total ≤ size)
    (hoffered : Offered (size - total) results)
    (h : (recvLoop buf size total mem errno results).ret = some 0) :
    ∃ data, Delivers (size - total) results data := by
  induction results generalizing total mem with
  | nil =>
    rw [recvLoop] at h
    split_ifs at h with hlt
    exact ⟨[], by simp only [List.length_nil]; omega, [], [], rfl, rfl⟩
  | cons r rs ih =>
    by_cases hlt : total < size
    · cases r with
      | fragment bytes =>
        obtain ⟨hpos, hle, hrest⟩ := hoffered (by omega)
        rw [Nat.sub_sub] at hrest
        by_cases herrno : errno = EINTR
        · rw [recvLoop_interrupted hlt herrno] at h
          cases h
        · rw [recvLoop_fragment hlt hpos herrno] at h
          obtain ⟨data, hlen, frags, rest, rfl, rfl⟩ := ih (by omega) hrest h
          refine ⟨bytes ++ frags.flatten, ?_, bytes :: frags, rest, rfl, rfl⟩
          rw [List.length_append]
          omega
      | closed =>
        rw [(recvLoop_failure hlt (by intro bytes hne; cases hne)).1] at h
        cases h
      | error e =>
        rw [(recvLoop_failure hlt (by intro bytes hne; cases hne)).1] at h
        cases h
    · exact ⟨[], by simp only [List.length_nil]; omega, [], r :: rs, rfl, rfl⟩

theorem recvLoop_within (htotal : total ≤ size) (hoffered : Offered (size - total) results)
    {x : ℕ} (hx : x < buf ∨ buf + size ≤ x) :
    (recvLoop buf size total mem errno results).mem x = mem x := by
  induction results generalizing total mem with
  | nil => rfl
  | cons r rs ih =>
    by_cases hlt : total < size
    · cases r with
      | fragment bytes =>
        obtain ⟨hpos, hle, hrest⟩ := hoffered (by omega)
        rw [Nat.sub_sub] at hrest
        have hstored : write mem (buf + total) bytes x = mem x :=
          write_outside mem (buf + total) bytes (by omega)
        by_cases herrno : errno = EINTR
        · rw [recvLoop_interrupted hlt herrno]
          exact hstored
        · rw [recvLoop_fragment hlt hpos herrno]
          exact (ih (by omega) hrest).trans hstored
      | closed => rw [(recvLoop_failure hlt (by intro bytes hne; cases hne)).2]
      | error e => rw [(recvLoop_failure hlt (by intro bytes hne; cases hne)).2]
    · rw [recvLoop_complete (by omega)]

/-! ### The call -/

theorem socketRecv_loop (hbuf : buf ≠ NULL) :
    socketRecv buf size mem errno results = recvLoop buf size 0 mem errno results := by
  rw [socketRecv, if_neg hbuf]

/- What is left to show of a call: that it takes in the data that is delivered. -/
theorem recvExact_of_complete (hbuf : buf ≠ NULL) (hoffered : Offered size results)
    (hcomplete : ∀ data, Delivers size results data →
      recvLoop buf size 0 mem errno results = ⟨some 0, write mem buf data, errno, []⟩) :
    RecvExact buf size mem results (socketRecv buf size mem errno results) := by
  rw [socketRecv_loop hbuf]
  constructor
  · constructor
    · exact fun h => delivers_of_recvLoop (Nat.zero_le size) hoffered h
    · rintro ⟨data, hdata⟩
      rw [hcomplete data hdata]
  · intro data hdata
    rw [hcomplete data hdata]
  · rintro ⟨frags, r, rest, rfl, hr, hsize⟩
    exact recvLoop_cut hoffered hr hsize
  · exact fun x hx => recvLoop_within (Nat.zero_le size) hoffered hx

theorem interrupted_of_delivers {data : List Byte} (hbuf : buf ≠ NULL) (hsize : size ≠ 0)
    (herrno : errno = EINTR) (hdata : Delivers size results data) :
    (socketRecv buf size mem errno results).ret = some (-1) := by
  obtain ⟨hlen, frags, rest, rfl, rfl⟩ := hdata
  rw [socketRecv_loop hbuf]
  cases frags with
  | nil => exact absurd hlen.symm hsize
  | cons bytes frags =>
    exact congrArg Received.ret (recvLoop_interrupted (Nat.pos_of_ne_zero hsize) herrno)

/-- `socketRecv` succeeds exactly when the data arrives, unless `errno` is already `EINTR`
when it is called and the data does arrive. -/
theorem socketRecv_exact_iff (mem : Memory) (errno : ℕ) (hbuf : buf ≠ NULL)
    (hoffered : Offered size results) :
    RecvExact buf size mem results (socketRecv buf size mem errno results) ↔
      size = 0 ∨ errno ≠ EINTR ∨ ¬ ∃ data, Delivers size results data := by
  constructor
  · intro hexact
    by_contra hnot
    rw [not_or, not_or, not_not, not_not] at hnot
    obtain ⟨hsize, herrno, data, hdata⟩ := hnot
    have hzero := hexact.succeeds.mpr ⟨data, hdata⟩
    rw [interrupted_of_delivers hbuf hsize herrno hdata] at hzero
    cases hzero
  · intro h
    apply recvExact_of_complete hbuf hoffered
    intro data hdata
    rcases h with rfl | herrno | hnone
    · rw [recvLoop_complete (Nat.le_refl 0), List.length_eq_zero_iff.mp hdata.1, write_nil]
    · obtain ⟨hlen, frags, rest, rfl, rfl⟩ := hdata
      exact recvLoop_delivers herrno hoffered hlen
    · exact absurd ⟨data, hdata⟩ hnone

/- Two bytes in two calls. -/
theorem socketRecv_exact_in_two :
    RecvExact 1000 2 (fun _ => 0) [.fragment [7#8], .fragment [9#8]]
        (socketRecv 1000 2 (fun _ => 0) 0 [.fragment [7#8], .fragment [9#8]]) ↔
      2 = 0 ∨ 0 ≠ EINTR ∨ ¬ ∃ data, Delivers 2 [.fragment [7#8], .fragment [9#8]] data :=
  socketRecv_exact_iff (fun _ => 0) 0 (by decide) (by simp [Offered])

/- The opponent's byte arrives, but a call before was interrupted. -/
theorem socketRecv_misses_data :
    Delivers 1 [.fragment [7#8]] [7#8] ∧
      (socketRecv 1000 1 (fun _ => 0) EINTR [.fragment [7#8]]).ret = some (-1) :=
  ⟨⟨rfl, [[7#8]], [], rfl, rfl⟩, rfl⟩

/-! ### The calls of the game -/

def Recv.result : Recv → RecvResult
  | .byte b => .fragment [b]
  | .closed => .closed
  | .error e => .error e

/-- What a player makes of a call is what the call for one byte does. -/
structure SameCall (buf : ℕ) (r : Recv) (p : Player) (q : Received) : Prop where
  ret : q.ret = if (p.socketRecv r).2 then some 0 else some (-1)
  errno : (p.socketRecv r).1.errno = q.errno
  out : ∃ texts : List StringsIdx, q.out = texts.map .text ∧
    (p.socketRecv r).1.out = p.out ++ texts.map .text
  data : ∀ b, r = .byte b → q.mem buf = (p.socketRecv r).1.data

theorem socketRecv_one (p : Player) (r : Recv) (mem : Memory) (hbuf : buf ≠ NULL) :
    SameCall buf r p (socketRecv buf 1 mem p.errno [r.result]) := by
  rw [socketRecv_loop hbuf]
  cases r with
  | byte b =>
    have hstored : write mem buf [b] buf = b := ByteMemory.write_inside mem buf [b] Nat.one_pos
    by_cases herrno : p.errno = EINTR
    · rw [Recv.result, recvLoop_interrupted Nat.one_pos herrno]
      refine ⟨?_, ?_, ⟨[], rfl, ?_⟩, ?_⟩ <;> simp [Player.socketRecv, herrno, hstored]
    · have hloop : recvLoop buf 1 0 mem p.errno [.fragment [b]] =
          ⟨some 0, write mem buf [b], p.errno, []⟩ :=
        recvLoop_fragment Nat.one_pos Nat.one_pos herrno
      rw [Recv.result, hloop]
      refine ⟨?_, ?_, ⟨[], rfl, ?_⟩, ?_⟩ <;> simp [Player.socketRecv, herrno, hstored]
  | closed =>
    by_cases herrno : p.errno = EINTR
    · refine ⟨?_, ?_, ⟨[], ?_⟩, ?_⟩ <;>
        simp [Player.socketRecv, Recv.result, recvLoop, recv, herrno]
    · refine ⟨?_, ?_, ⟨[.recvConnClosed], ?_⟩, ?_⟩ <;>
        simp [Player.socketRecv, Recv.result, recvLoop, recv, herrno]
  | error e =>
    by_cases herrno : e = EINTR
    · refine ⟨?_, ?_, ⟨[], ?_⟩, ?_⟩ <;>
        simp [Player.socketRecv, Recv.result, recvLoop, recv, herrno]
    · refine ⟨?_, ?_, ⟨[.recvFail], ?_⟩, ?_⟩ <;>
        simp [Player.socketRecv, Recv.result, recvLoop, recv, herrno]

end SyeLabs.Battleship
