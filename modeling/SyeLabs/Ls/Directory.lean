import Mathlib.Data.List.ModifyLast
import SyeLabs.Ls.Listing

/-!
# Which files a listing describes

`main` opens the directory that its argument names, `print_info_file` gives the names in it
to `stat` and `open`, which look them up in the current directory.
-/

namespace SyeLabs.Ls
open Interaction (Prog)

/-- What the calls find out about a file: an error or the metadata, whether `open` succeeds,
and an error or the contents. -/
structure File where
  stat : Option Stat
  opens : Bool
  data : Option (List Char)

/-- The names, without what is in the files. `lookup` does not follow what it finds. -/
structure FileSystem (Node : Type*) where
  lookup : Node → String → Option Node
  /-- The directory of a path, seen from a directory. -/
  opendir : Node → String → Option Node
  entries : Node → List Dirent
  listed : ∀ d, ∀ e ∈ entries d, (lookup d e.dName).isSome
  dot : ∀ d, opendir d "." = some d

structure Session (Node : Type*) where
  /-- What was opened, by descriptor. -/
  table : List Node
  stream : List Dirent
  /-- What is printed before an entry is read. -/
  text : String
  /-- The entries that were read, and what is printed after each. -/
  shown : List (Dirent × String)

variable {Node : Type*} {m : Session Node} {pre : List (Dirent × String)} {e : Dirent} {s : String}

namespace Session

def start : Session Node := ⟨[], [], "", []⟩

def print (m : Session Node) (t : String) : Session Node :=
  { m with
    text := if m.shown = [] then m.text ++ t else m.text
    shown := m.shown.modifyLast fun (e, s) => (e, s ++ t) }

@[simp] theorem table_print (t : String) : (m.print t).table = m.table := rfl

@[simp] theorem stream_print (t : String) : (m.print t).stream = m.stream := rfl

theorem shown_print (h : m.shown = pre ++ [(e, s)]) (t : String) :
    (m.print t).shown = pre ++ [(e, s ++ t)] := by
  simp only [print, h, List.modifyLast_concat]

end Session

/-- An answer that is only a number. -/
def give (ret : ℤ) : Answer := ⟨ret, ⟨0, 0, 0⟩, [], none⟩

@[simp] theorem give_ret (ret : ℤ) : (give ret).ret = ret := rfl

variable (P : Platform) (F : FileSystem Node) (files : Node → File) (cwd : Node)

/-- A kernel with the current directory `cwd` that has memory and descriptors enough. -/
def kernel (m : Session Node) : Call → Session Node × Answer
  | .opendir dir =>
    match F.opendir cwd dir with
    | none => (m, give 0)
    | some d => ({ m with stream := F.entries d }, give 1)
  | .readdir =>
    match m.stream with
    | [] => (m, give 0)
    | e :: es =>
      ({ m with stream := es, shown := m.shown ++ [(e, "")] }, { give 1 with entry := some e })
  | .stat file =>
    match (F.lookup cwd file).bind fun n => (files n).stat with
    | none => (m, give (-1))
    | some st => (m, { give 0 with stat := st })
  | .openFile file =>
    match (F.lookup cwd file).filter fun n => (files n).opens with
    | none => (m, give (-1))
    | some n => ({ m with table := m.table ++ [n] }, give m.table.length)
  | .close fd => (m, give (if 0 ≤ fd ∧ fd < m.table.length then 0 else -1))
  | .calloc _ => (m, give 1)
  | .free _ => (m, give 0)
  | .read fd _ count =>
    match m.table[fd.toNat]?.bind fun n => (files n).data with
    | none => (m, give (-1))
    | some cs => (m, { give (cs.take count).length with data := cs.take count })
  | .printf t => (m.print t, give t.length)

/-- Where a link points to, or the complaint. -/
def linkOf (name : String) (found : Option File) : Except String String :=
  match found.filter File.opens with
  | none => .error ("Error opening the file " ++ name ++ "\n" ++ "Error closing fd " ++ name ++ "\n")
  | some f =>
    match f.data with
    | none => .error ("Error reading the file " ++ name ++ "\n")
    | some cs => .ok (cString (cs.take (P.filenameSize - 1)))

def complaint : Except String String → String
  | .error text => text
  | .ok _ => ""

def linkText (name : String) (found : Option File) : String :=
  match linkOf P name found with
  | .error text => text ++ "\n"
  | .ok link => " -> " ++ link ++ "\n"

/-- What is to be printed for a name, when it is the name of the file `found`. -/
def entryText (name : String) (isDir : Bool) (found : Option File) : String :=
  match found.bind File.stat with
  | none => "Error getting metadata\n"
  | some st => infoLine P st name isDir ++
      if st.stMode &&& P.amSym ≠ 0 then linkText P name found else "\n"

/-- With `-l`, whatever the files are, each entry of the directory is described, as the file that
it is the entry of. -/
def Describes (argv : List String) : Prop :=
  ∀ (files : Node → File) (dir : String) (d : Node) (fuel : ℕ),
    parseArgs argv = some (true, dir) → F.opendir cwd dir = some d →
    (F.entries d).length < fuel →
    ∃ m, (main P fuel argv).run (kernel F files cwd) Session.start = (m, some 0) ∧
      m.shown = (F.entries d).map fun e =>
        (e, entryText P e.dName (e.dType = .dir) ((F.lookup d e.dName).map files))

/-- In the current directory the names of the listed one are names of the same files. -/
def SameNames (argv : List String) : Prop :=
  ∀ (dir : String) (d : Node), parseArgs argv = some (true, dir) → F.opendir cwd dir = some d →
    ∀ e ∈ F.entries d, F.lookup cwd e.dName = F.lookup d e.dName

section Printing

variable {P F files cwd} {file : String}

@[simp] theorem run_kernel_printf (t : String) :
    (printf t).run (kernel F files cwd) m = (m.print t, ()) := rfl

/-- The table when `n` was opened. -/
def Session.withFile (m : Session Node) (n : Node) : Session Node :=
  { m with table := m.table ++ [n] }

@[simp] theorem kernel_calloc (count : ℕ) :
    kernel F files cwd m (.calloc count) = (m, give 1) := rfl

theorem kernel_stat_none (h : ((F.lookup cwd file).bind fun n => (files n).stat) = none) :
    kernel F files cwd m (.stat file) = (m, give (-1)) := by
  simp only [kernel, h]

theorem kernel_stat_some {st : Stat}
    (h : ((F.lookup cwd file).bind fun n => (files n).stat) = some st) :
    kernel F files cwd m (.stat file) = (m, { give 0 with stat := st }) := by
  simp only [kernel, h]

theorem kernel_open_none (h : (F.lookup cwd file).filter (File.opens ∘ files) = none) :
    kernel F files cwd m (.openFile file) = (m, give (-1)) := by
  change (F.lookup cwd file).filter (fun n => (files n).opens) = none at h
  simp only [kernel, h]

theorem kernel_open_some {n : Node}
    (h : (F.lookup cwd file).filter (File.opens ∘ files) = some n) :
    kernel F files cwd m (.openFile file) = (m.withFile n, give m.table.length) := by
  change (F.lookup cwd file).filter (fun n => (files n).opens) = some n at h
  simp only [kernel, h, Session.withFile]

theorem kernel_read_none {n : Node} (h : (files n).data = none) (buf : ℤ) (count : ℕ) :
    kernel F files cwd (m.withFile n) (.read m.table.length buf count) =
      (m.withFile n, give (-1)) := by
  simp [kernel, Session.withFile, h]

theorem kernel_read_some {n : Node} {cs : List Char} (h : (files n).data = some cs) (buf : ℤ)
    (count : ℕ) : kernel F files cwd (m.withFile n) (.read m.table.length buf count) =
      (m.withFile n, { give (cs.take count).length with data := cs.take count }) := by
  simp [kernel, Session.withFile, h]

/-- Closing what was not opened gives an error. -/
theorem closeFd_negative :
    (closeFd (-1) file).run (kernel F files cwd) m =
      (m.print ("Error closing fd " ++ file ++ "\n"), ()) := rfl

theorem closeFd_opened {fd : ℕ} (h : fd < m.table.length) :
    (closeFd fd file).run (kernel F files cwd) m = (m, ()) := by
  have hopen : 0 ≤ (fd : ℤ) ∧ (fd : ℤ) < m.table.length := ⟨by omega, by exact_mod_cast h⟩
  simp only [closeFd, Prog.run_bind, Prog.run_ask, Prog.run_ite, kernel, if_pos hopen]
  rfl

theorem linkToStr_not_opened (h : (F.lookup cwd file).filter (File.opens ∘ files) = none) :
    (linkToStr P file).run (kernel F files cwd) m =
      ((m.print ("Error opening the file " ++ file ++ "\n")).print
        ("Error closing fd " ++ file ++ "\n"), none) := by
  simp only [linkToStr, Prog.run_bind, Prog.run_ask, Prog.run_ite, kernel_open_none h, give_ret,
    run_kernel_printf, closeFd_negative, Prog.run_pure]
  rw [if_pos (by decide)]

/-- What is read is read from the file that was opened. -/
theorem linkToStr_opened {n : Node}
    (h : (F.lookup cwd file).filter (File.opens ∘ files) = some n) :
    (linkToStr P file).run (kernel F files cwd) m =
      match (files n).data with
      | none => ((m.withFile n).print ("Error reading the file " ++ file ++ "\n"), none)
      | some cs => (m.withFile n, some (1, cString (cs.take (P.filenameSize - 1)))) := by
  simp only [linkToStr, Prog.run_bind, Prog.run_ask, Prog.run_ite, kernel_open_some h,
    kernel_calloc, give_ret]
  rw [if_neg (by omega), if_neg (by decide)]
  cases hdata : (files n).data with
  | none =>
    rw [kernel_read_none hdata, if_pos (by simp), run_kernel_printf, closeFd_opened]
    · rfl
    · simp [Session.withFile]
  | some cs =>
    rw [kernel_read_some hdata, if_neg (by simp)]
    rfl

/-- The function gives the link of the file that the name has in the current directory, or
complains about it. -/
theorem linkToStr_shows (hm : m.shown = pre ++ [(e, s)]) {link : Except String String}
    (hlink : linkOf P file ((F.lookup cwd file).map files) = link) :
    ∃ m', (linkToStr P file).run (kernel F files cwd) m =
        (m', link.toOption.map fun text => (1, text)) ∧
      m'.shown = pre ++ [(e, s ++ complaint link)] ∧ m'.stream = m.stream := by
  rw [linkOf, Option.filter_map] at hlink
  cases hopen : (F.lookup cwd file).filter (File.opens ∘ files) with
  | none =>
    simp only [hopen, Option.map_none] at hlink
    subst hlink
    refine ⟨_, linkToStr_not_opened hopen, ?_, rfl⟩
    rw [Session.shown_print (Session.shown_print hm _)]
    simp only [complaint, String.append_assoc]
  | some n =>
    have hrun := @linkToStr_opened Node m P F files cwd file n hopen
    rw [hopen, Option.map_some] at hlink
    cases hdata : (files n).data with
    | none =>
      simp only [hdata] at hlink hrun
      subst hlink
      exact ⟨_, hrun, @Session.shown_print Node (m.withFile n) pre e s hm _, rfl⟩
    | some cs =>
      simp only [hdata] at hlink hrun
      subst hlink
      exact ⟨_, hrun, hm.trans (by rw [complaint, String.append_empty]), rfl⟩

/-- The call prints what there is to print for the file that the name has in the current
directory. -/
theorem printInfoFile_shows (hm : m.shown = pre ++ [(e, s)]) (isDir : Bool) :
    ∃ m', (printInfoFile P file isDir true).run (kernel F files cwd) m = (m', ()) ∧
      m'.shown = pre ++ [(e, s ++ entryText P file isDir ((F.lookup cwd file).map files))] ∧
      m'.stream = m.stream := by
  have hbind : ((F.lookup cwd file).map files).bind File.stat =
      (F.lookup cwd file).bind fun n => (files n).stat := Option.bind_map ..
  simp only [printInfoFile, Prog.run_bind, Prog.run_ask, Prog.run_ite, run_kernel_printf]
  rw [if_neg (by decide), entryText, hbind]
  cases hstat : (F.lookup cwd file).bind fun n => (files n).stat with
  | none =>
    simp only [kernel_stat_none hstat]
    exact ⟨_, if_pos (by decide), Session.shown_print hm _, rfl⟩
  | some st =>
    have hinfo := Session.shown_print hm (infoLine P st file isDir)
    simp only [kernel_stat_some hstat, give_ret]
    rw [if_neg (by decide)]
    by_cases hsym : st.stMode &&& P.amSym ≠ 0
    · rw [if_pos hsym, if_pos hsym, linkText]
      cases hlink : linkOf P file ((F.lookup cwd file).map files) with
      | error text =>
        obtain ⟨m', hrun, hshown, hstream⟩ := linkToStr_shows hinfo hlink
        rw [hrun]
        refine ⟨m'.print "\n", rfl, ?_, hstream⟩
        rw [Session.shown_print hshown]
        simp only [complaint, String.append_assoc]
      | ok link =>
        obtain ⟨m', hrun, hshown, hstream⟩ := linkToStr_shows hinfo hlink
        rw [hrun]
        refine ⟨m'.print (" -> " ++ link ++ "\n"), rfl, ?_, hstream⟩
        rw [Session.shown_print hshown]
        simp only [complaint, String.append_empty, String.append_assoc]
    · rw [if_neg hsym, if_neg hsym]
      refine ⟨_, rfl, ?_, rfl⟩
      rw [Session.shown_print hinfo]
      simp only [String.append_assoc]

/-- The loop reads the whole stream and describes, for each entry, what its name is the name of
in the current directory. -/
theorem readLoop_shows {fuel : ℕ} (hfuel : m.stream.length < fuel) :
    ∃ m', (readLoop P true fuel).run (kernel F files cwd) m = (m', some 0) ∧
      m'.shown = m.shown ++ m.stream.map fun e =>
        (e, entryText P e.dName (e.dType = .dir) ((F.lookup cwd e.dName).map files)) := by
  induction fuel generalizing m with
  | zero => exact absurd hfuel (Nat.not_lt_zero _)
  | succ fuel ih =>
    simp only [readLoop, Prog.run_bind, Prog.run_ask]
    cases hstream : m.stream with
    | nil =>
      have hread : kernel F files cwd m .readdir = (m, give 0) := by simp only [kernel, hstream]
      rw [hread]
      exact ⟨m, rfl, (List.append_nil _).symm⟩
    | cons e es =>
      let next : Session Node := { m with stream := es, shown := m.shown ++ [(e, "")] }
      have hread : kernel F files cwd m .readdir = (next, { give 1 with entry := some e }) := by
        simp only [kernel, hstream, next]
      obtain ⟨m₁, hrun, hshown, hrest⟩ := @printInfoFile_shows Node next m.shown e "" P F files cwd
        e.dName rfl (e.dType = .dir)
      have hlen : m₁.stream.length < fuel := by
        rw [hrest]
        rw [hstream] at hfuel
        exact Nat.lt_of_succ_lt_succ hfuel
      obtain ⟨m₂, hloop, hall⟩ := ih hlen
      refine ⟨m₂, ?_, ?_⟩
      · simp only [hread, Prog.run_bind, hrun, hloop]
      · rw [hall, hshown, hrest, List.map_cons, String.empty_append, List.append_assoc]
        rfl

theorem main_shows {argv : List String} {dir : String} {d : Node} {fuel : ℕ}
    (hargs : parseArgs argv = some (true, dir)) (hdir : F.opendir cwd dir = some d)
    (hfuel : (F.entries d).length < fuel) :
    ∃ m, (main P fuel argv).run (kernel F files cwd) Session.start = (m, some 0) ∧
      m.shown = (F.entries d).map fun e =>
        (e, entryText P e.dName (e.dType = .dir) ((F.lookup cwd e.dName).map files)) := by
  have hopen : kernel F files cwd Session.start (.opendir dir) =
      ({ Session.start with stream := F.entries d }, give 1) := by
    simp only [kernel, hdir]
  simp only [main, hargs, Prog.run_bind, Prog.run_ask, Prog.run_ite, hopen, give_ret]
  exact readLoop_shows hfuel

end Printing

section Same

variable {P F cwd} {argv : List String}

/-- A text that begins with the mode is no complaint. -/
theorem infoLine_ne (name : String) (isDir : Bool) (rest : String) :
    infoLine P ⟨0, 0, 0⟩ name isDir ++ rest ≠ "Error getting metadata\n" := by
  intro h
  have hhead := congrArg (fun t : String => t.toList.head?) h
  simp [infoLine, attrToStr] at hhead

theorem entryText_plain_ne (name : String) (isDir opens : Bool) (data : Option (List Char)) :
    entryText P name isDir (some ⟨some ⟨0, 0, 0⟩, opens, data⟩) ≠ "Error getting metadata\n" :=
  infoLine_ne name isDir _

/-- There are files that tell two answers of a lookup apart. -/
theorem exists_entryText_ne {a b : Option Node} (hb : b.isSome) (hne : a ≠ b) (name : String)
    (isDir : Bool) : ∃ files : Node → File,
      entryText P name isDir (a.map files) ≠ entryText P name isDir (b.map files) := by
  classical
  obtain ⟨n, rfl⟩ := Option.isSome_iff_exists.1 hb
  cases a with
  | none =>
    exact ⟨fun _ => ⟨some ⟨0, 0, 0⟩, true, none⟩,
      (entryText_plain_ne name isDir true none).symm⟩
  | some x =>
    have hx : x ≠ n := fun h => hne (congrArg some h)
    refine ⟨fun y => if y = n then ⟨none, true, none⟩ else ⟨some ⟨0, 0, 0⟩, true, none⟩, ?_⟩
    rw [Option.map_some, Option.map_some, if_neg hx, if_pos rfl]
    exact entryText_plain_ne name isDir true none

theorem describes_of_sameNames (h : SameNames F cwd argv) : Describes P F cwd argv := by
  intro files dir d fuel hargs hdir hfuel
  obtain ⟨m, hrun, hshown⟩ := @main_shows Node P F files cwd argv dir d fuel hargs hdir hfuel
  refine ⟨m, hrun, hshown.trans (List.map_congr_left fun e he => ?_)⟩
  rw [h dir d hargs hdir e he]

theorem sameNames_of_describes (h : Describes P F cwd argv) : SameNames F cwd argv := by
  intro dir d hargs hdir e he
  by_contra hne
  obtain ⟨files, hdiffer⟩ :=
    @exists_entryText_ne Node P _ _ (F.listed d e he) hne e.dName (e.dType = .dir)
  obtain ⟨m, hrun, hdescribed⟩ := h files dir d _ hargs hdir (Nat.lt_succ_self _)
  obtain ⟨m', hrun', hshown⟩ :=
    @main_shows Node P F files cwd argv dir d _ hargs hdir (Nat.lt_succ_self _)
  obtain rfl : m = m' := congrArg Prod.fst (hrun.symm.trans hrun')
  have hsame := List.map_inj_left.1 (hshown.symm.trans hdescribed) e he
  exact hdiffer (congrArg Prod.snd hsame)

theorem ls_describes_iff (P : Platform) (F : FileSystem Node) (cwd : Node) (argv : List String) :
    Describes P F cwd argv ↔ SameNames F cwd argv :=
  ⟨sameNames_of_describes, describes_of_sameNames⟩

/-- The current directory itself is described. -/
theorem describes_dot (hargs : parseArgs argv = some (true, ".")) : Describes P F cwd argv := by
  refine describes_of_sameNames fun dir d hdir hopen e _ => ?_
  cases hargs.symm.trans hdir
  cases (F.dot cwd).symm.trans hopen
  rfl

end Same

inductive Place where
  | here
  | sub
  | file
  | twin
  deriving DecidableEq

/-- A directory with a directory in it and a file, that one with a file of the same name. -/
def twins : FileSystem Place where
  lookup
    | .here, "sub" => some .sub
    | .here, "a" => some .twin
    | .sub, "a" => some .file
    | _, _ => none
  opendir
    | d, "." => some d
    | .here, "sub" => some .sub
    | _, _ => none
  entries
    | .here => [⟨"sub", .dir⟩, ⟨"a", .other⟩]
    | .sub => [⟨"a", .other⟩]
    | _ => []
  listed := by
    intro d e he
    cases d <;> simp at he
    · rcases he with rfl | rfl <;> rfl
    · rcases he with rfl
      rfl
  dot := fun _ => rfl

/-- Listing `sub` describes the file of the current directory. -/
theorem ls_sub_not_described : ¬ Describes target twins .here ["ls", "-l", "sub"] := by
  intro h
  have hsame := sameNames_of_describes h "sub" .sub (by decide) rfl ⟨"a", .other⟩
    (List.mem_singleton_self _)
  exact absurd hsame (by decide)

end SyeLabs.Ls
