import Mathlib.Data.Finset.Card
import SyeLabs.Library.Run
import SyeLabs.Ls.Listing

/-!
# Descriptors and buffers of a listing

`link_to_str` closes its descriptor where it fails and not where it succeeds, it frees no
buffer, and after a failed `open` it closes what `open` returned.
-/

namespace SyeLabs.Ls
open Interaction (Prog)

@[ext]
structure Resources where
  /-- The open descriptors that are not from `open`. -/
  others : Finset ℕ
  /-- The descriptors that `open` returned and that are open. -/
  fds : Finset ℕ
  /-- The live buffers. -/
  heap : Finset ℤ
  /-- What `close` was called on and `open` had not returned. -/
  stray : List ℤ
  deriving DecidableEq

namespace Resources

variable (s : Resources)

def opened (fd : ℕ) : Resources := { s with fds := insert fd s.fds }

def allocated (buf : ℤ) : Resources := { s with heap := insert buf s.heap }

def freed (buf : ℤ) : Resources := { s with heap := s.heap.erase buf }

def closed (fd : ℤ) : Resources :=
  if 0 ≤ fd ∧ fd.toNat ∈ s.fds then { s with fds := s.fds.erase fd.toNat }
  else { s with others := s.others.filter fun (n : ℕ) => (n : ℤ) ≠ fd, stray := s.stray ++ [fd] }

variable {s}

theorem closed_opened {fd : ℤ} (h : 0 ≤ fd) (hfresh : fd.toNat ∉ s.fds) :
    (s.opened fd.toNat).closed fd = s := by
  have hmem : fd.toNat ∈ (s.opened fd.toNat).fds := Finset.mem_insert_self _ _
  rw [closed, if_pos ⟨h, hmem⟩]
  ext1 <;> simp [opened, Finset.erase_insert hfresh]

theorem freed_allocated {buf : ℤ} (hfresh : buf ∉ s.heap) : (s.allocated buf).freed buf = s := by
  ext1 <;> simp [allocated, freed, Finset.erase_insert hfresh]

/-- Between `open` and `close` a buffer may come. -/
theorem closed_allocated (fd buf : ℤ) :
    (s.allocated buf).closed fd = (s.closed fd).allocated buf := by
  unfold closed allocated
  dsimp only
  split <;> rfl

theorem closed_negative {fd : ℤ} (h : fd < 0) :
    s.closed fd = { s with stray := s.stray ++ [fd] } := by
  have hothers : s.others.filter (fun (n : ℕ) => (n : ℤ) ≠ fd) = s.others :=
    Finset.filter_true_of_mem fun n _ => by omega
  rw [closed, if_neg (by omega), hothers]

end Resources

/-- A call of `print_info_file`: an entry and how the calls for it are answered. None of them
whose answer is looked at is made twice. -/
structure Visit where
  entry : Dirent
  script : Call → Answer

variable (P : Platform) (extended : Bool) (v : Visit) (s : Resources)

namespace Visit

def stat : Answer := v.script (.stat v.entry.dName)

def fd : ℤ := (v.script (.openFile v.entry.dName)).ret

def buf : ℤ := (v.script (.calloc P.filenameSize)).ret

def err : ℤ := (v.script (.read v.fd (v.buf P) (P.filenameSize - 1))).ret

/-- The text of the buffer behind `read`. -/
def link : String := cString (v.script (.read v.fd (v.buf P) (P.filenameSize - 1))).data

/-- What is new is not there yet. -/
def Fresh : Prop :=
  (0 ≤ v.fd → v.fd.toNat ∉ s.others ∪ s.fds) ∧ (v.buf P ≠ 0 → v.buf P ∉ s.heap)

instance : Decidable (v.Fresh P s) := inferInstanceAs (Decidable (_ ∧ _))

/-- The call comes to `link_to_str`. -/
def Link : Prop := extended ∧ 0 ≤ v.stat.ret ∧ v.stat.stat.stMode &&& P.amSym ≠ 0

instance : Decidable (v.Link P extended) := inferInstanceAs (Decidable (_ ∧ _))

/-- If the entry is a link, then `open` succeeds and `calloc` fails. -/
def Careful : Prop := v.Link P extended → 0 ≤ v.fd ∧ v.buf P = 0

/-- `link_to_str` succeeds. -/
def LeavesDescriptor : Prop :=
  v.Link P extended ∧ 0 ≤ v.fd ∧ v.buf P ≠ 0 ∧ 0 ≤ v.err P

instance : Decidable (v.LeavesDescriptor P extended) := inferInstanceAs (Decidable (_ ∧ _))

/-- `read` fails. -/
def LeavesBuffer : Prop :=
  v.Link P extended ∧ 0 ≤ v.fd ∧ v.buf P ≠ 0 ∧ v.err P < 0

instance : Decidable (v.LeavesBuffer P extended) := inferInstanceAs (Decidable (_ ∧ _))

/-- `open` fails. -/
def ClosesStray : Prop := v.Link P extended ∧ v.fd < 0

instance : Decidable (v.ClosesStray P extended) := inferInstanceAs (Decidable (_ ∧ _))

variable {P extended v}

theorem leavesDescriptor_iff : v.LeavesDescriptor P extended ↔
    v.Link P extended ∧ 0 ≤ v.fd ∧ v.buf P ≠ 0 ∧ 0 ≤ v.err P := Iff.rfl

theorem leavesBuffer_iff : v.LeavesBuffer P extended ↔
    v.Link P extended ∧ 0 ≤ v.fd ∧ v.buf P ≠ 0 ∧ v.err P < 0 := Iff.rfl

theorem closesStray_iff : v.ClosesStray P extended ↔ v.Link P extended ∧ v.fd < 0 := Iff.rfl

theorem careful_iff : v.Careful P extended ↔ ¬ v.LeavesDescriptor P extended ∧
    ¬ v.LeavesBuffer P extended ∧ ¬ v.ClosesStray P extended := by
  unfold Careful LeavesDescriptor LeavesBuffer ClosesStray
  constructor
  · intro h
    refine ⟨fun hleft => ?_, fun hleft => ?_, fun hstray => ?_⟩
    · exact hleft.2.2.1 (h hleft.1).2
    · exact hleft.2.2.1 (h hleft.1).2
    · exact absurd (h hstray.1).1 (not_le.2 hstray.2)
  · rintro ⟨hdescriptor, hbuffer, hstray⟩ hlink
    have hfd : 0 ≤ v.fd := not_lt.1 fun hneg => hstray ⟨hlink, hneg⟩
    refine ⟨hfd, by_contra fun hbuf => ?_⟩
    rcases lt_or_ge (v.err P) 0 with hread | hread
    · exact hbuffer ⟨hlink, hfd, hbuf, hread⟩
    · exact hdescriptor ⟨hlink, hfd, hbuf, hread⟩

end Visit

/- A call, when `script` answers it. -/
def serve (script : Call → Answer) (s : Resources) (c : Call) : Resources × Answer :=
  let a := script c
  match c with
  | .openFile _ => (if a.ret < 0 then s else s.opened a.ret.toNat, a)
  | .calloc _ => (if a.ret = 0 then s else s.allocated a.ret, a)
  | .close fd => (s.closed fd, a)
  | .free buf => (s.freed buf, a)
  | _ => (s, a)

def visited : Resources :=
  ((printInfoFile P v.entry.dName (v.entry.dType = .dir) extended).run (serve v.script) s).1

def step (s : Resources) (v : Visit) : Option Resources :=
  if v.Fresh P s then some (visited P extended v s) else none

section Effect

variable {script : Call → Answer}

@[simp] theorem run_printf (text : String) : (printf text).run (serve script) s = (s, ()) := rfl

@[simp] theorem run_closeFd (fd : ℤ) (file : String) :
    (closeFd fd file).run (serve script) s = (s.closed fd, ()) := by
  simp only [closeFd, Prog.run_bind, Prog.run_ask, Prog.run_ite, run_printf, Prog.run_pure, serve,
    ite_self]

/-- The four ways out of `link_to_str`. -/
theorem linkToStr_run : (linkToStr P v.entry.dName).run (serve v.script) s =
    if v.fd < 0 then (s.closed v.fd, none)
    else if v.buf P = 0 then ((s.opened v.fd.toNat).closed v.fd, none)
    else if v.err P < 0 then
      (((s.opened v.fd.toNat).allocated (v.buf P)).closed v.fd, none)
    else ((s.opened v.fd.toNat).allocated (v.buf P), some (v.buf P, v.link P)) := by
  have hfd : (v.script (.openFile v.entry.dName)).ret = v.fd := rfl
  have hbuf : (v.script (.calloc P.filenameSize)).ret = v.buf P := rfl
  have herr : (v.script (.read v.fd (v.buf P) (P.filenameSize - 1))).ret = v.err P := rfl
  simp only [linkToStr, Prog.run_bind, Prog.run_ask, Prog.run_ite, run_printf, run_closeFd,
    Prog.run_pure, serve, hfd, hbuf, herr]
  by_cases hopen : v.fd < 0
  · simp only [if_pos hopen]
  by_cases hnull : v.buf P = 0
  · simp only [if_neg hopen, if_pos hnull]
  simp only [if_neg hopen, if_neg hnull]
  rfl

theorem visited_not_link (h : ¬ v.Link P extended) : visited P extended v s = s := by
  have hstat : v.script (.stat v.entry.dName) = v.stat := rfl
  simp only [Visit.Link, not_and_or, not_le, not_ne_iff] at h
  simp only [visited, printInfoFile, Prog.run_bind, Prog.run_ask, Prog.run_ite, run_printf, serve,
    hstat]
  rcases h with hplain | hfail | hmode
  · simp [hplain]
  · simp [hfail]
  · simp [hmode]

theorem visited_link (h : v.Link P extended) : visited P extended v s =
    if v.fd < 0 then s.closed v.fd
    else if v.buf P = 0 then (s.opened v.fd.toNat).closed v.fd
    else if v.err P < 0 then ((s.opened v.fd.toNat).allocated (v.buf P)).closed v.fd
    else ((s.opened v.fd.toNat).allocated (v.buf P)).freed (v.buf P) := by
  obtain ⟨hextended, hstat, hmode⟩ := h
  have hstat' : ¬ (v.script (.stat v.entry.dName)).ret < 0 := not_lt.2 hstat
  have hmode' : (v.script (.stat v.entry.dName)).stat.stMode &&& P.amSym ≠ 0 := hmode
  simp only [visited, printInfoFile, hextended, Prog.run_bind, Prog.run_ask, Prog.run_ite,
    run_printf, serve, linkToStr_run]
  rw [if_neg (by decide), if_neg hstat', if_pos hmode']
  by_cases hopen : v.fd < 0
  · simp only [if_pos hopen, run_printf]
  by_cases hnull : v.buf P = 0
  · simp only [if_neg hopen, if_pos hnull, run_printf]
  by_cases hread : v.err P < 0
  · simp only [if_neg hopen, if_neg hnull, if_pos hread, run_printf]
  · simp only [if_neg hopen, if_neg hnull, if_neg hread]
    rfl

/-- What the call leaves behind, when what it gets is new. -/
theorem visited_fresh (hfresh : v.Fresh P s) : visited P extended v s =
    { others := s.others
      fds := if v.LeavesDescriptor P extended then insert v.fd.toNat s.fds else s.fds
      heap := if v.LeavesBuffer P extended then insert (v.buf P) s.heap else s.heap
      stray := if v.ClosesStray P extended then s.stray ++ [v.fd] else s.stray } := by
  by_cases hlink : v.Link P extended
  · rw [visited_link P extended v s hlink]
    simp only [Visit.leavesDescriptor_iff, Visit.leavesBuffer_iff, Visit.closesStray_iff, hlink,
      true_and]
    by_cases hopen : v.fd < 0
    · simp only [hopen, not_le.2 hopen, false_and, if_true, if_false]
      exact Resources.closed_negative hopen
    have hfd : 0 ≤ v.fd := not_lt.1 hopen
    have hnew : v.fd.toNat ∉ s.fds := fun hmem =>
      hfresh.1 hfd (Finset.mem_union_right s.others hmem)
    by_cases hnull : v.buf P = 0
    · simp only [hnull, hopen, ne_eq, not_true, false_and, and_false, if_true, if_false]
      exact Resources.closed_opened hfd hnew
    by_cases hread : v.err P < 0
    · simp only [hopen, hfd, hnull, hread, not_le.2 hread, ne_eq, not_false_iff, true_and,
        and_false, if_true, if_false]
      rw [Resources.closed_allocated, Resources.closed_opened hfd hnew]
      rfl
    · simp only [hopen, hfd, hnull, hread, not_lt.1 hread, ne_eq, not_false_iff, true_and,
        and_false, if_true, if_false]
      exact Resources.freed_allocated (hfresh.2 hnull)
  · rw [visited_not_link P extended v s hlink]
    simp only [Visit.leavesDescriptor_iff, Visit.leavesBuffer_iff, Visit.closesStray_iff, hlink,
      false_and, if_false]

/-- The call leaves everything as it was exactly when it is careful. -/
theorem visited_eq_iff (hfresh : v.Fresh P s) :
    visited P extended v s = s ↔ v.Careful P extended := by
  rw [visited_fresh P extended v s hfresh, Visit.careful_iff]
  constructor
  · intro heq
    refine ⟨fun hleft => ?_, fun hleft => ?_, fun hstray => ?_⟩
    · have hfds := congrArg Resources.fds heq
      rw [if_pos hleft, Finset.insert_eq_self] at hfds
      exact hfresh.1 hleft.2.1 (Finset.mem_union_right _ hfds)
    · have hheap := congrArg Resources.heap heq
      rw [if_pos hleft, Finset.insert_eq_self] at hheap
      exact hfresh.2 hleft.2.2.1 hheap
    · have hlist := congrArg Resources.stray heq
      rw [if_pos hstray] at hlist
      simp at hlist
  · rintro ⟨hfd, hbuf, hstray⟩
    rw [if_neg hfd, if_neg hbuf, if_neg hstray]

end Effect

section Runs

variable {P extended v s} {t : Resources} {visits : List Visit}

theorem step_some (h : step P extended s v = some t) :
    v.Fresh P s ∧ visited P extended v s = t := by
  unfold step at h
  split at h
  case isTrue hfresh => exact ⟨hfresh, Option.some.inj h⟩
  case isFalse => cases h

theorem step_fds_card (h : step P extended s v = some t) :
    t.fds.card = s.fds.card + if v.LeavesDescriptor P extended then 1 else 0 := by
  obtain ⟨hfresh, rfl⟩ := step_some h
  rw [visited_fresh P extended v s hfresh]
  dsimp only
  split
  case isTrue hleft =>
    exact Finset.card_insert_of_notMem fun hmem =>
      hfresh.1 hleft.2.1 (Finset.mem_union_right s.others hmem)
  case isFalse => rfl

theorem step_heap_card (h : step P extended s v = some t) :
    t.heap.card = s.heap.card + if v.LeavesBuffer P extended then 1 else 0 := by
  obtain ⟨hfresh, rfl⟩ := step_some h
  rw [visited_fresh P extended v s hfresh]
  dsimp only
  split
  case isTrue hleft => exact Finset.card_insert_of_notMem (hfresh.2 hleft.2.2.1)
  case isFalse => rfl

/-- Every link that is read keeps its descriptor. -/
theorem exec_fds_card (hrun : Run.exec (step P extended) s visits = some t) :
    t.fds.card = s.fds.card + visits.countP fun v => v.LeavesDescriptor P extended :=
  @Run.exec_countP Resources Visit (step P extended) (fun u => u.fds.card)
    (fun v => v.LeavesDescriptor P extended) _ (fun _ _ _ h => step_fds_card h) s t visits hrun

/-- Every link whose `read` fails keeps its buffer. -/
theorem exec_heap_card (hrun : Run.exec (step P extended) s visits = some t) :
    t.heap.card = s.heap.card + visits.countP fun v => v.LeavesBuffer P extended :=
  @Run.exec_countP Resources Visit (step P extended) (fun u => u.heap.card)
    (fun v => v.LeavesBuffer P extended) _ (fun _ _ _ h => step_heap_card h) s t visits hrun

theorem listing_keeps_iff (hrun : Run.exec (step P extended) s visits = some t) :
    Run.Along (step P extended) (fun u => u = s) s visits ↔
      ∀ v ∈ visits, v.Careful P extended := by
  refine Run.along_iff_forall ?_ rfl hrun
  rintro _ v s' rfl hstep
  obtain ⟨hfresh, rfl⟩ := step_some hstep
  exact visited_eq_iff P extended v _ hfresh

end Runs

section Loop

/-- A machine that hands out entries and answers for each as its visit says. -/
structure Serving where
  resources : Resources
  script : Call → Answer
  coming : List Visit

def serveAll (m : Serving) (c : Call) : Serving × Answer :=
  match c, m.coming with
  | .readdir, [] => (m, { m.script .readdir with entry := none })
  | .readdir, v :: vs =>
    ({ m with script := v.script, coming := vs }, { v.script .readdir with entry := some v.entry })
  | c, _ =>
    let answered := serve m.script m.resources c
    ({ m with resources := answered.1 }, answered.2)

theorem only_printf (text : String) : (printf text).Only (· ≠ .readdir) :=
  Prog.only_bind (Prog.only_ask (by simp)) fun _ => Prog.only_pure _

theorem only_closeFd (fd : ℤ) (file : String) : (closeFd fd file).Only (· ≠ .readdir) := by
  refine Prog.only_bind (Prog.only_ask (by simp)) fun a => ?_
  split
  · exact only_printf _
  · exact Prog.only_pure _

theorem only_linkToStr (file : String) : (linkToStr P file).Only (· ≠ .readdir) := by
  have hgiveUp : ∀ (text : String) (fd : ℤ), (do
      printf text
      closeFd fd file
      return (none : Option (ℤ × String))).Only (· ≠ Call.readdir) := fun text fd =>
    Prog.only_bind (only_printf text) fun _ =>
      Prog.only_bind (only_closeFd fd file) fun _ => Prog.only_pure _
  refine Prog.only_bind (Prog.only_ask (by simp)) fun fd => ?_
  split
  · exact hgiveUp _ _
  refine Prog.only_bind (Prog.only_ask (by simp)) fun buf => ?_
  split
  · exact hgiveUp _ _
  refine Prog.only_bind (Prog.only_ask (by simp)) fun err => ?_
  split
  · exact hgiveUp _ _
  · exact Prog.only_pure _

/-- A call of `print_info_file` takes no entry. -/
theorem only_printInfoFile (file : String) (isDir : Bool) :
    (printInfoFile P file isDir extended).Only (· ≠ .readdir) := by
  unfold printInfoFile
  split
  · exact only_printf _
  refine Prog.only_bind (Prog.only_ask (by simp)) fun fStat => ?_
  split
  · exact only_printf _
  refine Prog.only_bind (only_printf _) fun _ => ?_
  split
  · refine Prog.only_bind (only_linkToStr P file) fun link => ?_
    cases link with
    | none => exact only_printf _
    | some given =>
      exact Prog.only_bind (only_printf _) fun _ =>
        Prog.only_bind (Prog.only_ask (by simp)) fun _ => Prog.only_pure _
  · exact only_printf _

theorem serveAll_of_ne {c : Call} (h : c ≠ .readdir) (script : Call → Answer)
    (visits : List Visit) :
    serveAll ⟨s, script, visits⟩ c =
      (⟨(serve script s c).1, script, visits⟩, (serve script s c).2) := by
  cases c with
  | readdir => exact absurd rfl h
  | _ => rfl

/-- The loop of `main` takes the steps. -/
theorem readLoop_run {s t : Resources} {visits : List Visit} {fuel : ℕ} (script : Call → Answer)
    (hfuel : visits.length < fuel) (hrun : Run.exec (step P extended) s visits = some t) :
    ∃ m, (readLoop P extended fuel).run serveAll ⟨s, script, visits⟩ = (m, some 0) ∧
      m.resources = t ∧ m.coming = [] := by
  induction visits generalizing s script fuel with
  | nil =>
    obtain ⟨n, rfl⟩ : ∃ n, fuel = n + 1 := ⟨fuel - 1, by omega⟩
    cases hrun
    exact ⟨_, rfl, rfl, rfl⟩
  | cons v vs ih =>
    obtain ⟨n, rfl⟩ : ∃ n, fuel = n + 1 := ⟨fuel - 1, by omega⟩
    obtain ⟨s', hs', hrest⟩ := Run.exec_cons_some hrun
    obtain ⟨-, rfl⟩ := step_some hs'
    rw [List.length_cons] at hfuel
    obtain ⟨m, hm, hdone⟩ := ih v.script (Nat.lt_of_succ_lt_succ hfuel) hrest
    refine ⟨m, ?_, hdone⟩
    have hcall := Prog.run_lift (serve v.script) s (fun u => (⟨u, v.script, vs⟩ : Serving))
      (fun u c hc => serveAll_of_ne u hc v.script vs)
      (only_printInfoFile P extended v.entry.dName (v.entry.dType = .dir))
    simp only [readLoop, Prog.run_bind, Prog.run_ask, serveAll, hcall]
    exact hm

/-- So does `main`, when the directory can be opened. -/
theorem main_run {s t : Resources} {visits : List Visit} {fuel : ℕ} {script : Call → Answer}
    {argv : List String} {dir : String} (hargs : parseArgs argv = some (extended, dir))
    (hdir : (script (.opendir dir)).ret ≠ 0) (hfuel : visits.length < fuel)
    (hrun : Run.exec (step P extended) s visits = some t) :
    ∃ m, (main P fuel argv).run serveAll ⟨s, script, visits⟩ = (m, some 0) ∧
      m.resources = t ∧ m.coming = [] := by
  have hstream : serveAll ⟨s, script, visits⟩ (.opendir dir) =
      (⟨s, script, visits⟩, script (.opendir dir)) := rfl
  simp only [main, hargs, Prog.run_bind, Prog.run_ask, Prog.run_ite, hstream]
  rw [if_neg hdir]
  exact readLoop_run P extended script hfuel hrun

end Loop

/-- An entry with a mode, and `open` and `calloc` give the fixed numbers. -/
def visitOf (mode : ℕ) (fd buf : ℤ) : Visit where
  entry := ⟨"a", .other⟩
  script
    | .openFile _ => ⟨fd, ⟨0, 0, 0⟩, [], none⟩
    | .calloc _ => ⟨buf, ⟨0, 0, 0⟩, [], none⟩
    | _ => ⟨0, ⟨mode, 0, 0⟩, [], none⟩

def atStart : Resources := ⟨{0, 1, 2, 3}, ∅, ∅, []⟩

/-- A regular file and a link that gets no buffer. -/
theorem listing_keeps_iff_two :
    Run.Along (step target true) (fun u => u = atStart) atStart [visitOf 4 4 8, visitOf 6 4 0] ↔
      ∀ v ∈ [visitOf 4 4 8, visitOf 6 4 0], v.Careful target true :=
  listing_keeps_iff (t := atStart) (by decide)

/-- A link for which every call succeeds keeps its descriptor. -/
theorem link_keeps_descriptor :
    Run.exec (step target true) atStart [visitOf 6 4 8] = some { atStart with fds := {4} } ∧
      ¬ Run.Along (step target true) (fun u => u = atStart) atStart [visitOf 6 4 8] := by
  have hrun : step target true atStart (visitOf 6 4 8) = some { atStart with fds := {4} } := by
    decide
  refine ⟨by decide, fun halong => ?_⟩
  have hsame : { atStart with fds := {4} } = atStart := halong.2 _ hrun
  exact absurd hsame (by decide)

end SyeLabs.Ls
