import SyeLabs.So3.Renice

/-!
# Listing the processes (`lab9/process.c`, lines 1088-1171)

`do_ps` returns at the first process without other threads. Neither listing looks
whether there is a main thread before it takes the name of it.
-/

namespace SyeLabs.So3
open ByteMemory (CStr)

/-- What a thread shows of itself. -/
structure ThreadInfo where
  priority : Word
  name : CStr

/- A line of `do_ps`. -/
inductive PsLine where
  | emptyList
  | process (pid : Word) (mainTid : Tid) (info : ThreadInfo)
  | thread (otherTid : Tid) (info : ThreadInfo)

def PsLine.pid? : PsLine → Option Word
  | .process pid _ _ => some pid
  | _ => none

def PsLine.otherTid? : PsLine → Option Tid
  | .thread otherTid _ => some otherTid
  | _ => none

structure DumpLine where
  pid : Word
  state : ProcState
  mainTid : ℤ
  name : CStr

/-- `threads` gives the other threads of a process, `info` what is known of a thread. -/
structure ThreadLists where
  threads : PcbPtr → List Tid
  info : Tid → ThreadInfo

variable (T : ThreadLists) (k : Kernel)

/- The outer loop of `do_ps`; `none` is an access through NULL. -/
def psFrom : List PcbPtr → Option (List PsLine)
  | [] => some []
  | a :: as => do
    let t ← (k.pcbs a).mainThread
    let line := .process (k.pcbs a).pid t (T.info t)
    if T.threads a = [] then some [line]
    else do
      let rest ← psFrom as
      some (line :: ((T.threads a).map fun t => .thread t (T.info t)) ++ rest)

def doPs : Option (List PsLine) :=
  if k.procList = [] then some [.emptyList] else psFrom T k k.procList

def dumpLine (a : PcbPtr) : Option DumpLine := do
  let p := k.pcbs a
  let tid : ℤ := match p.mainThread with
    | some t => t
    | none => -1
  let t ← p.mainThread
  some ⟨p.pid, p.state, tid, (T.info t).name⟩

def dumpProc : Option (List DumpLine) := k.procList.mapM (dumpLine T k)

/-- Both listings come to their end, each has one line for each process, and that of
`do_ps` one for each other thread. -/
structure ListsAll : Prop where
  ps : ∃ out, doPs T k = some out ∧
    (out.filterMap PsLine.pid?).Perm (k.procList.map fun a => (k.pcbs a).pid) ∧
    (out.filterMap PsLine.otherTid?).Perm (k.procList.flatMap T.threads)
  dump : ∃ out, dumpProc T k = some out ∧
    (out.map DumpLine.pid).Perm (k.procList.map fun a => (k.pcbs a).pid)

variable {T k}

theorem psFrom_quits {a : PcbPtr} {as : List PcbPtr} {t : Tid}
    (hmain : (k.pcbs a).mainThread = some t) (hnone : T.threads a = []) :
    psFrom T k (a :: as) = some [.process (k.pcbs a).pid t (T.info t)] := by
  rw [psFrom, hmain]
  simp only [Option.bind_eq_bind, Option.bind_some, if_pos hnone]

theorem psFrom_next {a : PcbPtr} {as : List PcbPtr} {t : Tid}
    (hmain : (k.pcbs a).mainThread = some t) (hsome : T.threads a ≠ []) :
    psFrom T k (a :: as) = (psFrom T k as).map fun rest =>
      .process (k.pcbs a).pid t (T.info t) ::
        ((T.threads a).map fun t => .thread t (T.info t)) ++ rest := by
  rw [psFrom, hmain]
  simp only [Option.bind_eq_bind, Option.bind_some, if_neg hsome]
  cases psFrom T k as <;> rfl

theorem threads_pids (ts : List Tid) :
    (ts.map fun t => PsLine.thread t (T.info t)).filterMap PsLine.pid? = [] := by
  induction ts with
  | nil => rfl
  | cons t ts ih => exact ih

theorem threads_otherTids (ts : List Tid) :
    (ts.map fun t => PsLine.thread t (T.info t)).filterMap PsLine.otherTid? = ts := by
  induction ts with
  | nil => rfl
  | cons t ts ih => exact congrArg (t :: ·) ih

/- The lines of a process and those behind it. -/
theorem psLines_pids {pid : Word} {t : Tid} (ts : List Tid) (rest : List PsLine) :
    (PsLine.process pid t (T.info t) :: (ts.map fun t => .thread t (T.info t)) ++ rest).filterMap
      PsLine.pid? = pid :: rest.filterMap PsLine.pid? := by
  rw [List.cons_append, List.filterMap_cons_some (f := PsLine.pid?) rfl, List.filterMap_append,
    threads_pids, List.nil_append]

theorem psLines_otherTids {pid : Word} {t : Tid} (ts : List Tid) (rest : List PsLine) :
    (PsLine.process pid t (T.info t) :: (ts.map fun t => .thread t (T.info t)) ++ rest).filterMap
      PsLine.otherTid? = ts ++ rest.filterMap PsLine.otherTid? := by
  rw [List.cons_append, List.filterMap_cons_none (f := PsLine.otherTid?) rfl,
    List.filterMap_append, threads_otherTids]

theorem mem_dropLast_cons {a b : PcbPtr} {as : List PcbPtr} (h : b ∈ as.dropLast) :
    b ∈ (a :: as).dropLast := by
  cases as with
  | nil => exact absurd h List.not_mem_nil
  | cons c cs => exact List.mem_cons_of_mem a h

/-- With a main thread each, the loop goes on to the end or has too few lines. -/
theorem psFrom_spec {as : List PcbPtr} (hmain : ∀ a ∈ as, (k.pcbs a).mainThread ≠ none) :
    ∃ out, psFrom T k as = some out ∧
      ((∀ a ∈ as.dropLast, T.threads a ≠ []) →
        out.filterMap PsLine.pid? = as.map (fun a => (k.pcbs a).pid) ∧
          out.filterMap PsLine.otherTid? = as.flatMap T.threads) ∧
      ((out.filterMap PsLine.pid?).length = as.length → ∀ a ∈ as.dropLast, T.threads a ≠ []) := by
  induction as with
  | nil => exact ⟨[], rfl, fun _ => ⟨rfl, rfl⟩, fun _ a ha => absurd ha List.not_mem_nil⟩
  | cons a as ih =>
    obtain ⟨t, ht⟩ := Option.ne_none_iff_exists'.mp (hmain a List.mem_cons_self)
    obtain ⟨out, hout, hall, hlength⟩ := ih fun b hb => hmain b (List.mem_cons_of_mem a hb)
    by_cases hnone : T.threads a = []
    · refine ⟨_, psFrom_quits ht hnone, ?_, ?_⟩
      · intro hlast
        cases as with
        | nil =>
          refine ⟨rfl, ?_⟩
          rw [List.flatMap_cons, hnone]
          rfl
        | cons b bs => exact absurd hnone (hlast a List.mem_cons_self)
      · intro hone
        cases as with
        | nil => exact fun b hb => absurd hb List.not_mem_nil
        | cons b bs => cases hone
    · refine ⟨_, by rw [psFrom_next ht hnone, hout]; rfl, ?_, ?_⟩
      · intro hlast
        obtain ⟨hpids, htids⟩ := hall fun b hb => hlast b (mem_dropLast_cons hb)
        rw [psLines_pids, psLines_otherTids, hpids, htids]
        exact ⟨rfl, rfl⟩
      · intro hlen b hb
        rw [psLines_pids, List.length_cons, List.length_cons, Nat.succ_inj] at hlen
        cases as with
        | nil => exact absurd hb List.not_mem_nil
        | cons c cs =>
          rcases List.mem_cons.mp hb with rfl | hrest
          · exact hnone
          · exact hlength hlen b hrest

theorem doPs_eq (hne : k.procList ≠ []) : doPs T k = psFrom T k k.procList := if_neg hne

/- The name is read through the main thread. -/
theorem dumpLine_some {a : PcbPtr} {line : DumpLine} (h : dumpLine T k a = some line) :
    (k.pcbs a).mainThread ≠ none ∧ line.pid = (k.pcbs a).pid := by
  cases hmain : (k.pcbs a).mainThread with
  | none =>
    simp only [dumpLine, hmain] at h
    cases h
  | some t =>
    simp only [dumpLine, hmain] at h
    cases h
    exact ⟨Option.some_ne_none t, rfl⟩

theorem dumpLine_main {a : PcbPtr} (h : (k.pcbs a).mainThread ≠ none) :
    ∃ line, dumpLine T k a = some line := by
  obtain ⟨t, ht⟩ := Option.ne_none_iff_exists'.mp h
  exact ⟨_, by simp only [dumpLine, ht]; rfl⟩

theorem dumpFrom_pids {as : List PcbPtr} {out : List DumpLine}
    (h : as.mapM (dumpLine T k) = some out) :
    (∀ a ∈ as, (k.pcbs a).mainThread ≠ none) ∧
      out.map DumpLine.pid = as.map fun a => (k.pcbs a).pid := by
  induction as generalizing out with
  | nil =>
    rw [List.mapM_nil] at h
    cases h
    exact ⟨fun a ha => absurd ha List.not_mem_nil, rfl⟩
  | cons a as ih =>
    rw [List.mapM_cons] at h
    obtain ⟨line, hline, hrest⟩ := Option.bind_eq_some_iff.mp h
    obtain ⟨lines, hlines, hout⟩ := Option.bind_eq_some_iff.mp hrest
    cases hout
    obtain ⟨hmain, hpid⟩ := dumpLine_some hline
    obtain ⟨hall, hpids⟩ := ih hlines
    refine ⟨?_, by rw [List.map_cons, List.map_cons, hpid, hpids]⟩
    intro b hb
    rcases List.mem_cons.mp hb with rfl | hrest
    · exact hmain
    · exact hall b hrest

theorem dumpFrom_some {as : List PcbPtr} (h : ∀ a ∈ as, (k.pcbs a).mainThread ≠ none) :
    ∃ out, as.mapM (dumpLine T k) = some out := by
  induction as with
  | nil => exact ⟨[], rfl⟩
  | cons a as ih =>
    obtain ⟨line, hline⟩ := @dumpLine_main T k a (h a List.mem_cons_self)
    obtain ⟨lines, hlines⟩ := ih fun b hb => h b (List.mem_cons_of_mem a hb)
    exact ⟨line :: lines, by rw [List.mapM_cons, hline, hlines]; rfl⟩

theorem ListsAll.complete (h : ListsAll T k) : (∀ a ∈ k.procList, (k.pcbs a).mainThread ≠ none) ∧
    ∀ a ∈ k.procList.dropLast, T.threads a ≠ [] := by
  obtain ⟨dumped, hdumped, _⟩ := h.dump
  have hmain := (dumpFrom_pids hdumped).1
  refine ⟨hmain, ?_⟩
  by_cases hne : k.procList = []
  · rw [hne]
    exact fun a ha => absurd ha List.not_mem_nil
  · obtain ⟨out, hout, hpids, _⟩ := h.ps
    obtain ⟨out', hfrom, _, hlength⟩ := @psFrom_spec T k k.procList hmain
    rw [doPs_eq hne, hfrom] at hout
    obtain rfl := Option.some.inj hout
    apply hlength
    rw [hpids.length_eq, List.length_map]

/-- The listings are complete exactly when every process has a main thread, and all but the
last one have other threads. -/
theorem listsAll_iff (T : ThreadLists) (k : Kernel) :
    ListsAll T k ↔ (∀ a ∈ k.procList, (k.pcbs a).mainThread ≠ none) ∧
      ∀ a ∈ k.procList.dropLast, T.threads a ≠ [] := by
  refine ⟨ListsAll.complete, ?_⟩
  rintro ⟨hmain, hthreads⟩
  obtain ⟨dumped, hdumped⟩ := @dumpFrom_some T k k.procList hmain
  refine ⟨?_, dumped, hdumped, List.Perm.of_eq (dumpFrom_pids hdumped).2⟩
  by_cases hne : k.procList = []
  · refine ⟨[.emptyList], if_pos hne, ?_, ?_⟩
    · rw [hne]
      exact List.Perm.refl []
    · rw [hne]
      exact List.Perm.refl []
  · obtain ⟨out, hfrom, hall, _⟩ := @psFrom_spec T k k.procList hmain
    obtain ⟨hpids, htids⟩ := hall hthreads
    refine ⟨out, (doPs_eq hne).trans hfrom, ?_, ?_⟩
    · rw [hpids]
    · rw [htids]

/- No process has threads but its main one. -/
def singleThreads (info : Tid → ThreadInfo) : ThreadLists := ⟨fun _ => [], info⟩

/- After one `fork` the child is left out, and a process that was reaped and kept has no main
thread. -/
theorem listings_incomplete :
    (∃ t, Run.exec (Sys.step rootPlatform) rootSys [⟨0, .fork⟩] = some t ∧
      ∀ info, ¬ ListsAll (singleThreads info) t.kernel) ∧
    ∃ t, Run.exec (Sys.step rootPlatform) rootSys halfCleaned = some t ∧
      ∀ T, ¬ ListsAll T t.kernel := by
  constructor
  · have hstate : (Run.exec (Sys.step rootPlatform) rootSys [⟨0, .fork⟩]).map
        (fun t => t.kernel.procList) = some [0, 1] := by decide
    obtain ⟨t, ht, hlist⟩ := Option.map_eq_some_iff.mp hstate
    refine ⟨t, ht, fun info h => h.complete.2 0 ?_ rfl⟩
    rw [hlist]
    exact List.mem_singleton_self 0
  · have hstate : (Run.exec (Sys.step rootPlatform) rootSys halfCleaned).map
        (fun t => (t.kernel.procList, (t.kernel.pcbs 1).mainThread)) = some ([0, 1, 2], none) := by
      decide
    obtain ⟨t, ht, hfacts⟩ := Option.map_eq_some_iff.mp hstate
    obtain ⟨hlist, hmain⟩ := Prod.mk.inj hfacts
    refine ⟨t, ht, fun T h => h.complete.1 1 ?_ hmain⟩
    rw [hlist]
    decide

end SyeLabs.So3
