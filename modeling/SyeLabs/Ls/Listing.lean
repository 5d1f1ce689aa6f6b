import SyeLabs.Library.Machine
import SyeLabs.Ls.HumanSize

/-!
# The directory listing (`lab14/ls.c`)

The functions are programs over the calls they make. The headers of the target give the
constants, and a call returns a number and what it leaves where its argument points to.
-/

namespace SyeLabs.Ls
open Interaction (Prog)
open Interaction.Prog (ask)

/-- What is printed of a `struct tm`. -/
structure Tm where
  tmMin : ℤ
  tmHour : ℤ
  tmMday : ℤ
  tmMon : ℤ
  tmYear : ℤ

structure Platform where
  longBits : ℕ
  filenameSize : ℕ
  amDir : ℕ
  amSym : ℕ
  amRd : ℕ
  amWr : ℕ
  amEx : ℕ
  localtime : ℤ → Tm
  /-- The text of a size whose prefix is read behind the table. -/
  behind : BitVec longBits → String

structure Stat where
  stMode : ℕ
  stMtim : ℤ
  stSize : ℕ

inductive DType where
  | dir
  | other
  deriving DecidableEq

structure Dirent where
  dName : String
  dType : DType
  deriving DecidableEq

inductive Call where
  | opendir (dir : String)
  | readdir
  | stat (file : String)
  /- with `O_NOFOLLOW | O_PATH` -/
  | openFile (file : String)
  | close (fd : ℤ)
  | calloc (count : ℕ)
  | free (buf : ℤ)
  | read (fd buf : ℤ) (count : ℕ)
  | printf (text : String)

structure Answer where
  ret : ℤ
  /-- `struct stat` behind `stat`. -/
  stat : Stat
  /-- The buffer behind `read`. -/
  data : List Char
  /-- The entry of `readdir`; `none` is NULL. -/
  entry : Option Dirent

variable (P : Platform)

def printf (text : String) : Prog Call Answer Unit := do
  let _ ← ask (.printf text)

def attrToStr (mod : ℕ) : String := String.ofList [
  if mod &&& P.amDir ≠ 0 then if mod &&& P.amSym ≠ 0 then 'l' else 'd' else '-',
  if mod &&& P.amRd ≠ 0 then 'r' else '-',
  if mod &&& P.amWr ≠ 0 then 'w' else '-',
  if mod &&& P.amEx ≠ 0 then 'x' else '-']

def closeFd (fd : ℤ) (file : String) : Prog Call Answer Unit := do
  let a ← ask (.close fd)
  if a.ret < 0 then printf ("Error closing fd " ++ file ++ "\n")

/-- A buffer that was filled with zeros, up to the first of them. -/
def cString (data : List Char) : String := String.ofList (data.takeWhile (· ≠ Char.ofNat 0))

/- `link_to_str`: the buffer and the text in it, `none` for NULL. -/
def linkToStr (file : String) : Prog Call Answer (Option (ℤ × String)) := do
  let fd ← ask (.openFile file)
  if fd.ret < 0 then do
    printf ("Error opening the file " ++ file ++ "\n")
    closeFd fd.ret file
    return none
  else do
    let buf ← ask (.calloc P.filenameSize)
    if buf.ret = 0 then do
      printf "Error during memory allocation\n"
      closeFd fd.ret file
      return none
    else do
      let err ← ask (.read fd.ret buf.ret (P.filenameSize - 1))
      if err.ret < 0 then do
        printf ("Error reading the file " ++ file ++ "\n")
        closeFd fd.ret file
        return none
      else
        -- the descriptor stays open
        return some (buf.ret, cString err.data)

/- `sprintf(date, "%d-%d-%d %d:%d", ...)` -/
def dateText (time : ℤ) : String :=
  let tm := P.localtime time
  toString (1900 + tm.tmYear) ++ "-" ++ toString (tm.tmMon + 1) ++ "-" ++ toString tm.tmMday ++
    " " ++ toString tm.tmHour ++ ":" ++ toString tm.tmMin

def sizeText (stSize : ℕ) : String :=
  let bytes := BitVec.ofNat P.longBits stSize
  (bytesToHumanReadable bytes).getD (P.behind bytes)

/- `printf("%s | %s | %s | %s%s", modes, date, size, file, ...)` -/
def infoLine (fStat : Stat) (file : String) (isDir : Bool) : String :=
  attrToStr P fStat.stMode ++ " | " ++ dateText P fStat.stMtim ++ " | " ++
    sizeText P fStat.stSize ++ " | " ++ file ++ if isDir then "/" else ""

def printInfoFile (file : String) (isDir extended : Bool) : Prog Call Answer Unit := do
  if !extended then
    printf (file ++ (if isDir then "/" else "") ++ "\n")
  else do
    let fStat ← ask (.stat file)
    if fStat.ret < 0 then
      printf "Error getting metadata\n"
    else do
      printf (infoLine P fStat.stat file isDir)
      if fStat.stat.stMode &&& P.amSym ≠ 0 then do
        match ← linkToStr P file with
        | none => printf "\n"
        | some (buf, link) => do
          printf (" -> " ++ link ++ "\n")
          let _ ← ask (.free buf)
      else
        printf "\n"

def usage : String := "Usage: ls [-l] [DIR]\n"

/-- `extended` and `dir` from the arguments. -/
def parseArgs : List String → Option (Bool × String)
  | [_] => some (false, ".")
  | [_, a] => if a = "-l" then some (true, ".") else some (false, a)
  | [_, a, b] =>
    if a = "-l" then some (true, b)
    else if b = "-l" then some (true, a)
    else none
  | _ => none

/- The loop of `main`; `none` when `fuel` entries were not all. -/
def readLoop (extended : Bool) : ℕ → Prog Call Answer (Option ℤ)
  | 0 => return none
  | fuel + 1 => do
    let pEntry ← ask .readdir
    match pEntry.entry with
    | none => return some 0
    | some e => do
      printInfoFile P e.dName (e.dType = .dir) extended
      readLoop extended fuel

/- What `main` ends with. -/
def main (fuel : ℕ) (argv : List String) : Prog Call Answer (Option ℤ) := do
  match parseArgs argv with
  | none => do
    printf usage
    return some 1
  | some (extended, dir) => do
    let stream ← ask (.opendir dir)
    if stream.ret = 0 then return some 1
    else readLoop P extended fuel

/-- A target: regular files have no bits, directories and links have theirs. -/
def target : Platform where
  longBits := 32
  filenameSize := 128
  amDir := 1
  amSym := 2
  amRd := 4
  amWr := 8
  amEx := 16
  localtime := fun _ => ⟨0, 0, 1, 0, 70⟩
  behind := fun _ => ""

end SyeLabs.Ls
