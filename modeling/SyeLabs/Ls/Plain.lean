import SyeLabs.Library.PrefixCode
import SyeLabs.Ls.Directory

/-!
# The listing without `-l` as a format

One line for each entry, with a slash behind a directory. If no name has a slash or a newline
in it, the text gives back the entries.
-/

namespace SyeLabs.Ls
open Interaction (Prog)

/-- What a run has printed. -/
def Session.printed {Node : Type*} (m : Session Node) : List Char :=
  m.text.toList ++ m.shown.flatMap fun (_, s) => s.toList

def plainLine (e : Dirent) : String :=
  e.dName ++ (if e.dType = .dir then "/" else "") ++ "\n"

/-- A name that a file can have, on one line. -/
def Dirent.Proper (e : Dirent) : Prop := '/' ∉ e.dName.toList ∧ '\n' ∉ e.dName.toList

instance (e : Dirent) : Decidable e.Proper := inferInstanceAs (Decidable (_ ∧ _))

/-! ### One line -/

theorem takeWhile_of_notMem {xs ys : List Char} {c : Char} (hc : c ∉ xs) :
    (xs ++ c :: ys).takeWhile (· ≠ c) = xs := by
  have hall : ∀ x ∈ xs, decide (x ≠ c) = true := fun x hx =>
    decide_eq_true fun h => hc (h ▸ hx)
  rw [List.takeWhile_append_of_pos hall, List.takeWhile_cons_of_neg (by simp), List.append_nil]

/-- What stands in front of the newline. -/
def shownName (e : Dirent) : List Char := e.dName.toList ++ if e.dType = .dir then ['/'] else []

theorem plainLine_toList (e : Dirent) : (plainLine e).toList = shownName e ++ ['\n'] := by
  unfold plainLine shownName
  split_ifs <;> simp

variable {e e' : Dirent}

theorem newline_notMem_shownName (h : e.Proper) : '\n' ∉ shownName e := by
  unfold shownName
  split_ifs <;> simp [h.2]

theorem shownName_inj (h : e.Proper) (h' : e'.Proper) (heq : shownName e = shownName e') :
    e = e' := by
  have hname : ∀ {e : Dirent}, e.Proper → (shownName e).takeWhile (· ≠ '/') = e.dName.toList := by
    intro e he
    unfold shownName
    split_ifs
    · exact takeWhile_of_notMem he.1
    · rw [List.append_nil]
      exact List.takeWhile_eq_self_iff.mpr fun c hc => decide_eq_true fun hslash =>
        he.1 (hslash ▸ hc)
  have hsame := congrArg (List.takeWhile (· ≠ '/')) heq
  rw [hname h, hname h'] at hsame
  rw [shownName, shownName, hsame, List.append_cancel_left_eq] at heq
  obtain ⟨name, type⟩ := e
  obtain ⟨name', type'⟩ := e'
  obtain rfl : name = name' := String.toList_inj.mp hsame
  cases type <;> cases type' <;> first | rfl | cases heq

theorem plainLine_beginning (h : e.Proper) (h' : e'.Proper)
    (hle : (plainLine e).toList <+: (plainLine e').toList) : e = e' := by
  obtain ⟨rest, hrest⟩ := hle
  rw [plainLine_toList, plainLine_toList, List.append_assoc, List.singleton_append] at hrest
  have hfront := congrArg (List.takeWhile (· ≠ '\n')) hrest
  rw [takeWhile_of_notMem (newline_notMem_shownName h),
    takeWhile_of_notMem (newline_notMem_shownName h')] at hfront
  exact shownName_inj h h' hfront

/-! ### The run -/

variable {Node : Type*} {P : Platform} {F : FileSystem Node} {files : Node → File} {cwd : Node}
  {m : Session Node}

theorem printInfoFile_plain (name : String) (isDir : Bool) :
    (printInfoFile P name isDir false).run (kernel F files cwd) m =
      (m.print (name ++ (if isDir then "/" else "") ++ "\n"), ()) := rfl

theorem readLoop_plain {fuel : ℕ} (hfuel : m.stream.length < fuel) :
    ∃ m', (readLoop P false fuel).run (kernel F files cwd) m = (m', some 0) ∧
      m'.text = m.text ∧ m'.shown = m.shown ++ m.stream.map fun e => (e, plainLine e) := by
  induction fuel generalizing m with
  | zero => exact absurd hfuel (Nat.not_lt_zero _)
  | succ fuel ih =>
    simp only [readLoop, Prog.run_bind, Prog.run_ask]
    cases hstream : m.stream with
    | nil =>
      have hread : kernel F files cwd m .readdir = (m, give 0) := by simp only [kernel, hstream]
      rw [hread]
      exact ⟨m, rfl, rfl, (List.append_nil _).symm⟩
    | cons e es =>
      let next : Session Node := { m with stream := es, shown := m.shown ++ [(e, "")] }
      have hread : kernel F files cwd m .readdir = (next, { give 1 with entry := some e }) := by
        simp only [kernel, hstream, next]
      have hline : (printInfoFile P e.dName (e.dType = .dir) false).run (kernel F files cwd) next =
          (next.print (plainLine e), ()) := by
        rw [printInfoFile_plain]
        simp only [plainLine, decide_eq_true_eq]
      have hshown : (next.print (plainLine e)).shown = m.shown ++ [(e, plainLine e)] := by
        rw [@Session.shown_print Node next m.shown e "" rfl, String.empty_append]
      have htext : (next.print (plainLine e)).text = m.text :=
        if_neg (List.append_ne_nil_of_right_ne_nil _ (List.cons_ne_nil _ _))
      have hlen : (next.print (plainLine e)).stream.length < fuel := by
        rw [hstream] at hfuel
        exact Nat.lt_of_succ_lt_succ hfuel
      obtain ⟨m', hrun, htext', hall⟩ := ih hlen
      refine ⟨m', ?_, htext'.trans htext, ?_⟩
      · simp only [hread, Prog.run_bind, hline, hrun]
      · rw [hall, hshown, List.map_cons, List.append_assoc]
        rfl

/-- The listing of a directory is the lines of its entries. -/
theorem main_plain {argv : List String} {dir : String} {d : Node} {fuel : ℕ}
    (hargs : parseArgs argv = some (false, dir)) (hdir : F.opendir cwd dir = some d)
    (hfuel : (F.entries d).length < fuel) :
    ∃ m, (main P fuel argv).run (kernel F files cwd) Session.start = (m, some 0) ∧
      m.printed = (F.entries d).flatMap fun e => (plainLine e).toList := by
  have hopen : kernel F files cwd Session.start (.opendir dir) =
      ({ Session.start with stream := F.entries d }, give 1) := by
    simp only [kernel, hdir]
  simp only [main, hargs, Prog.run_bind, Prog.run_ask, Prog.run_ite, hopen, give_ret]
  obtain ⟨m, hrun, htext, hshown⟩ := @readLoop_plain Node P F files cwd
    { Session.start with stream := F.entries d } fuel hfuel
  refine ⟨m, hrun, ?_⟩
  rw [Session.printed, htext, hshown, List.flatMap_append, List.flatMap_map]
  rfl

/-- Two listings are the same text exactly if the directories have the same entries in the same
order, whatever the files are. -/
theorem listing_iff {Node' : Type*} {P' : Platform} {F' : FileSystem Node'} {cwd' : Node'}
    (files : Node → File) (files' : Node' → File) {argv argv' : List String} {dir dir' : String}
    {d : Node} {d' : Node'} {fuel : ℕ}
    (hargs : parseArgs argv = some (false, dir)) (hargs' : parseArgs argv' = some (false, dir'))
    (hdir : F.opendir cwd dir = some d) (hdir' : F'.opendir cwd' dir' = some d')
    (hfuel : (F.entries d).length < fuel) (hfuel' : (F'.entries d').length < fuel)
    (hproper : ∀ e ∈ F.entries d, e.Proper) (hproper' : ∀ e ∈ F'.entries d', e.Proper) :
    ∃ m m', (main P fuel argv).run (kernel F files cwd) Session.start = (m, some 0) ∧
      (main P' fuel argv').run (kernel F' files' cwd') Session.start = (m', some 0) ∧
      (m.printed = m'.printed ↔ F.entries d = F'.entries d') := by
  obtain ⟨m, hrun, hprinted⟩ :=
    @main_plain Node P F files cwd argv dir d fuel hargs hdir hfuel
  obtain ⟨m', hrun', hprinted'⟩ :=
    @main_plain Node' P' F' files' cwd' argv' dir' d' fuel hargs' hdir' hfuel'
  refine ⟨m, m', hrun, hrun', ?_⟩
  rw [hprinted, hprinted']
  constructor
  · refine PrefixCode.flatMap_inj (S := {e : Dirent | e.Proper}) (fun e _ hnil => ?_)
      (fun e he e' he' => plainLine_beginning he he') hproper hproper'
    rw [plainLine_toList] at hnil
    exact List.append_ne_nil_of_right_ne_nil _ (List.cons_ne_nil _ _) hnil
  · intro h
    rw [h]

/-- Files that cannot be read. -/
def unreadable : Place → File := fun _ => ⟨none, false, none⟩

theorem listing_iff_sub : ∃ m m',
    (main target 3 ["ls"]).run (kernel twins unreadable .here) Session.start = (m, some 0) ∧
    (main target 3 ["ls", "sub"]).run (kernel twins unreadable .here) Session.start = (m', some 0) ∧
    (m.printed = m'.printed ↔ twins.entries .here = twins.entries .sub) := by
  have hhere : parseArgs ["ls"] = some (false, ".") := by decide
  have hsub : parseArgs ["ls", "sub"] = some (false, "sub") := by decide
  exact listing_iff unreadable unreadable hhere hsub rfl rfl (by decide) (by decide) (by decide)
    (by decide)

end SyeLabs.Ls
