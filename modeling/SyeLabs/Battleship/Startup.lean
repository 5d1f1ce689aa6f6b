import SyeLabs.Library.Interaction
import SyeLabs.Library.PrefixCode
import SyeLabs.Battleship.Placement

/-!
# From the command line to the first turn (`lab8/battleship.c`, lines 338-525)

`main` reads its arguments, has the boats placed and only then opens the connection, with
`server_create` or `client_connect`. The game starts if every call for the connection succeeds.
-/

namespace SyeLabs.Battleship
open Interaction
open Interaction.Prog (done call act)

def BACKLOG : ℕ := 1
def PORT_MIN : ℤ := 1024
def PORT_MAX : ℤ := 65535
def PORT_DEFAULT : ℤ := 5001
def LOCALHOST : String := "127.0.0.1"
def EXIT_SUCCESS : ℤ := 0
def EXIT_FAILURE : ℤ := 1

namespace Startup

/-- The entries of `strings` that are printed before the game. -/
inductive Text where
  | serverListen
  | serverClientConnect
  | clientConnecting
  | clientConnected
  | servSockFail
  | cliSockFail
  | servBindFail
  | servListenFail
  | servCliConnFail
  | cliConnFail
  | cliIpRetFail
  | invIpAddr
  | invPort
  | invPortRange
  | argIpErr
  | argPortErr
  | unknownArgErr
  | progUsage
  deriving DecidableEq

def Text.string : Text → String
  | serverListen => "Server listening on port"
  | serverClientConnect => "Client connected"
  | clientConnecting => "Connecting to server"
  | clientConnected => "Connected to server successfully"
  | servSockFail => "Server socket creation failed"
  | cliSockFail => "Client socket creation failed"
  | servBindFail => "Server: binding failed"
  | servListenFail => "Server: listen failure"
  | servCliConnFail => "Server: client connection failed"
  | cliConnFail => "Client: Connection failed"
  | cliIpRetFail => "Client: error occurred ip address conversion"
  | invIpAddr => "Invalid IP address: NULL pointer provided."
  | invPort => "Invalid port: "
  | invPortRange => "Port must be between 1024 and 65535."
  | argIpErr => "Error: -a option requires an IP address."
  | argPortErr => "Error: -p option requires a port number."
  | unknownArgErr => "Error: Unknown argument:"
  | progUsage => "Usage: [program_name] [-s] [-a ip_address] [-p port]"

/-- Ports are those of `htons`; a `connect` goes to what `inet_pton` has made of the text. -/
inductive Syscall where
  | printf (text : String)
  | socket
  | bind (fd : ℤ) (port : BitVec 16)
  | listen (fd : ℤ) (backlog : ℕ)
  | accept (fd : ℤ)
  | inetPton (text : String)
  | connect (fd : ℤ) (text : String) (port : BitVec 16)
  | close (fd : ℤ)
  deriving DecidableEq

/-- What a call returns, -1 at the least. -/
structure Reply where
  value : ℤ
  least : -1 ≤ value

/-- A function has returned, or has called `exit`. -/
inductive Connection where
  | returned (fd : ℤ)
  | exited (status : ℤ)
  deriving DecidableEq

def puts (t : Text) : Syscall := .printf (t.string ++ "\n")

def server_create (port : ℤ) : Prog Syscall Reply Connection :=
  call .socket fun sock_fd =>
  if sock_fd.value = -1 then act (puts .servSockFail) (done (.returned (-1))) else
  call (.bind sock_fd.value (BitVec.ofInt 16 port)) fun bound =>
  if bound.value ≠ 0 then
    act (puts .servBindFail) (act (.close sock_fd.value) (done (.returned (-1)))) else
  call (.listen sock_fd.value BACKLOG) fun listening =>
  if listening.value ≠ 0 then
    act (puts .servListenFail) (act (.close sock_fd.value) (done (.returned (-1)))) else
  act (.printf (Text.serverListen.string ++ " " ++ toString port ++ "...\n")) <|
  call (.accept sock_fd.value) fun conn_fd =>
  act (.close sock_fd.value) <|
  if conn_fd.value < 0 then act (puts .servCliConnFail) (done (.exited (-1))) else
  act (puts .serverClientConnect) (done (.returned conn_fd.value))

def client_connect (ip_addr : Option String) (port : ℤ) : Prog Syscall Reply Connection :=
  match ip_addr with
  | none => act (puts .invIpAddr) (done (.returned (-1)))
  | some ip_addr =>
    if port < PORT_MIN ∨ port > PORT_MAX then
      act (.printf (Text.invPort.string ++ toString port ++ " " ++ Text.invPortRange.string ++
        "\n")) (done (.returned (-1))) else
    act (.printf (Text.clientConnecting.string ++ " " ++ ip_addr ++ ":" ++ toString port ++
      "...\n")) <|
    call .socket fun sock_fd =>
    if sock_fd.value < 0 then act (puts .cliSockFail) (done (.returned (-1))) else
    call (.inetPton ip_addr) fun converted =>
    if converted.value ≤ 0 then
      act (puts .cliIpRetFail) (act (.close sock_fd.value) (done (.returned (-1)))) else
    call (.connect sock_fd.value ip_addr (BitVec.ofInt 16 port)) fun connected =>
    if connected.value < 0 then
      act (puts .cliConnFail) (act (.close sock_fd.value) (done (.returned (-1)))) else
    act (puts .clientConnected) (done (.returned sock_fd.value))

/-! ### The arguments -/

structure Options where
  ip_addr : String
  server : Bool
  port : ℤ
  deriving DecidableEq

def Options.default : Options := ⟨LOCALHOST, false, PORT_DEFAULT⟩

inductive ArgError where
  | ip
  | port
  | unknown (arg : String)
  deriving DecidableEq

variable (atoi : String → ℤ)

/-- The loop over the arguments behind the program name. -/
def parseArgs : Options → List String → Except ArgError Options
  | o, [] => .ok o
  | o, arg :: rest =>
    if arg = "-s" then parseArgs {o with server := true} rest
    else if arg = "-a" then
      match rest with
      | value :: rest => parseArgs {o with ip_addr := value} rest
      | [] => .error .ip
    else if arg = "-p" then
      match rest with
      | value :: rest => parseArgs {o with port := atoi value} rest
      | [] => .error .port
    else .error (.unknown arg)

def ArgError.lines : ArgError → List String
  | ip => [Text.argIpErr.string ++ "\n"]
  | port => [Text.argPortErr.string ++ "\n"]
  | unknown arg =>
    [Text.unknownArgErr.string ++ " " ++ arg ++ "\n", Text.progUsage.string ++ "\n"]

/-- The options of the usage line. -/
inductive Opt where
  | s
  | a (ip_addr : String)
  | p (port : String)
  deriving DecidableEq

def Opt.words : Opt → List String
  | s => ["-s"]
  | a value => ["-a", value]
  | p value => ["-p", value]

def Options.set (o : Options) : Opt → Options
  | .s => {o with server := true}
  | .a value => {o with ip_addr := value}
  | .p value => {o with port := atoi value}

/-- The arguments from which `main` cannot go on. -/
inductive Stuck : List String → ArgError → Prop where
  | ip : Stuck ["-a"] .ip
  | port : Stuck ["-p"] .port
  | unknown (arg : String) (rest : List String) : arg ≠ "-s" → arg ≠ "-a" → arg ≠ "-p" →
      Stuck (arg :: rest) (.unknown arg)

theorem Opt.words_beginning {x y : Opt} (h : x.words <+: y.words) : x = y := by
  cases x <;> cases y <;> simp_all [Opt.words]

theorem parseArgs_words (o : Options) (x : Opt) (rest : List String) :
    parseArgs atoi o (x.words ++ rest) = parseArgs atoi (o.set atoi x) rest := by
  -- the options without a value too are read by looking at what follows
  cases x <;> cases rest <;> rfl

theorem parseArgs_options (o : Options) (opts : List Opt) (rest : List String) :
    parseArgs atoi o (opts.flatMap Opt.words ++ rest) =
      parseArgs atoi (opts.foldl (Options.set atoi) o) rest := by
  induction opts generalizing o with
  | nil => rfl
  | cons x opts ih =>
    rw [List.flatMap_cons, List.append_assoc, parseArgs_words, ih]
    rfl

theorem parseArgs_stuck (o : Options) {rest : List String} {e : ArgError} (h : Stuck rest e) :
    parseArgs atoi o rest = .error e := by
  cases h with
  | ip => rfl
  | port => rfl
  | unknown arg rest hs ha hp =>
    cases rest <;> rw [parseArgs, if_neg hs, if_neg ha, if_neg hp]

/-- Options up to the end of the arguments, or up to where `main` cannot go on. -/
theorem options_or_stuck (args : List String) :
    ∃ opts rest, args = List.flatMap Opt.words opts ++ rest ∧
      (rest = [] ∨ ∃ e, Stuck rest e) := by
  induction hn : args.length using Nat.strong_induction_on generalizing args with
  | _ n ih =>
    have hnext : ∀ (x : Opt) (rest : List String), args = x.words ++ rest →
        rest.length < n → ∃ opts rest, args = List.flatMap Opt.words opts ++ rest ∧
          (rest = [] ∨ ∃ e, Stuck rest e) := by
      rintro x rest rfl hlength
      obtain ⟨opts, last, rfl, hlast⟩ := ih rest.length hlength rest rfl
      exact ⟨x :: opts, last, by rw [List.flatMap_cons, List.append_assoc], hlast⟩
    cases args with
    | nil => exact ⟨[], [], rfl, .inl rfl⟩
    | cons arg rest =>
      rw [List.length_cons] at hn
      by_cases hs : arg = "-s"
      · exact hnext .s rest (by rw [hs]; rfl) (by omega)
      by_cases ha : arg = "-a"
      · cases rest with
        | nil => exact ⟨[], ["-a"], by rw [ha]; rfl, .inr ⟨_, .ip⟩⟩
        | cons value rest =>
          rw [List.length_cons] at hn
          exact hnext (.a value) rest (by rw [ha]; rfl) (by omega)
      by_cases hp : arg = "-p"
      · cases rest with
        | nil => exact ⟨[], ["-p"], by rw [hp]; rfl, .inr ⟨_, .port⟩⟩
        | cons value rest =>
          rw [List.length_cons] at hn
          exact hnext (.p value) rest (by rw [hp]; rfl) (by omega)
      exact ⟨[], arg :: rest, rfl, .inr ⟨_, .unknown arg rest hs ha hp⟩⟩

/-- The arguments are accepted exactly where they are options, which is so in one way only, and a
later option wins; otherwise the error is that of the first place that is none. -/
theorem parseArgs_iff (o : Options) (args : List String) :
    (∀ o', parseArgs atoi o args = .ok o' ↔ ∃! opts : List Opt,
      args = opts.flatMap Opt.words ∧ o' = opts.foldl (Options.set atoi) o) ∧
    ∀ e, parseArgs atoi o args = .error e ↔ ∃ (opts : List Opt) (rest : List String),
      args = opts.flatMap Opt.words ++ rest ∧ Stuck rest e := by
  have hwords : ∀ opts : List Opt, parseArgs atoi o (opts.flatMap Opt.words) =
      .ok (opts.foldl (Options.set atoi) o) := by
    intro opts
    have hall := parseArgs_options atoi o opts []
    rw [List.append_nil] at hall
    rw [hall, parseArgs]
  have hstuck : ∀ {opts : List Opt} {rest : List String} {e : ArgError}, Stuck rest e →
      parseArgs atoi o (opts.flatMap Opt.words ++ rest) = .error e := by
    intro opts rest e hrest
    rw [parseArgs_options, parseArgs_stuck atoi _ hrest]
  obtain ⟨opts, rest, rfl, hend⟩ := options_or_stuck args
  refine ⟨fun o' => ⟨fun h => ?_, ?_⟩, fun e => ⟨fun h => ?_, ?_⟩⟩
  · rcases hend with rfl | ⟨e, hrest⟩
    · rw [List.append_nil] at h ⊢
      rw [hwords] at h
      refine ⟨opts, ⟨rfl, (Except.ok.inj h).symm⟩, fun opts' hopts' => ?_⟩
      exact (PrefixCode.flatMap_inj (S := Set.univ) (fun x _ => by cases x <;> simp [Opt.words])
        (fun _ _ _ _ => Opt.words_beginning) (fun _ _ => trivial) (fun _ _ => trivial)
        hopts'.1).symm
    · rw [hstuck hrest] at h
      cases h
  · rintro ⟨opts', ⟨hargs, rfl⟩, _⟩
    rw [hargs, hwords]
  · rcases hend with rfl | ⟨e', hrest⟩
    · rw [List.append_nil, hwords] at h
      cases h
    · rw [hstuck hrest] at h
      cases h
      exact ⟨opts, rest, rfl, hrest⟩
  · rintro ⟨opts', rest', hargs, hrest⟩
    rw [hargs, hstuck hrest]

/-! ### The program -/

/-- How far `main` comes: `waiting` is in `placeBoatsOnGrid` for ever. -/
inductive Started where
  | waiting
  | exited (status : ℤ)
  | game (fd : ℤ) (p : Player)

def printAll (lines : List String) (next : Prog Syscall Reply Started) :
    Prog Syscall Reply Started :=
  lines.foldr (fun line rest => act (.printf line) rest) next

def connection (o : Options) : Prog Syscall Reply Connection :=
  if o.server then server_create o.port else client_connect (some o.ip_addr) o.port

/-- `main` after `fd` has been set. -/
def enter (userGrid : Grid) (server : Bool) (errno : ℕ) : Connection → Started
  | .exited status => .exited status
  | .returned fd =>
    if fd = -1 then .exited EXIT_FAILURE else .game fd (Player.start userGrid server errno)

/-- `main` up to its loop; `errno` is what the calls leave. What is printed while the boats are
placed is not repeated here. -/
def main (errno : ℕ) (argv : List String) (input : List Byte) : Prog Syscall Reply Started :=
  match parseArgs atoi Options.default argv with
  | .error e => printAll e.lines (done (.exited (-1)))
  | .ok o =>
    match placeInput BOAT_NUM ⟨water, 0, [.boatPlace]⟩ input with
    | none => done .waiting
    | some (s, _) => (connection o).map (enter s.grid o.server errno)

/-! ### The connection -/

variable {o : Options}

/-- What a call has opened. -/
def opened : Syscall × Reply → Option ℤ
  | (.socket, r) | (.accept _, r) => if r.value = -1 then none else some r.value
  | _ => none

def closed : Syscall × Reply → Option ℤ
  | (.close fd, _) => some fd
  | _ => none

def Succeeded : Syscall × Reply → Prop
  | (.socket, r) | (.accept _, r) | (.connect _ _ _, r) => r.value ≠ -1
  | (.bind _ _, r) | (.listen _ _, r) => r.value = 0
  | (.inetPton _, r) => 0 < r.value
  | (.printf _, _) | (.close _, _) => True

def complaint (server : Bool) : Syscall → Option Text
  | .socket => if server then some .servSockFail else some .cliSockFail
  | .bind _ _ => some .servBindFail
  | .listen _ _ => some .servListenFail
  | .accept _ => some .servCliConnFail
  | .inetPton _ => some .cliIpRetFail
  | .connect _ _ _ => some .cliConnFail
  | .printf _ | .close _ => none

def Syscall.port? : Syscall → Option (BitVec 16)
  | .bind _ port | .connect _ _ port => some port
  | _ => none

def Connection.fds : Connection → List ℤ
  | .returned fd => if fd = -1 then [] else [fd]
  | .exited _ => []

/-- `client_connect` checks its port, `server_create` does not. -/
def Options.Reachable (o : Options) : Prop := o.server ∨ (PORT_MIN ≤ o.port ∧ o.port ≤ PORT_MAX)

structure Connects (o : Options) (log : List (Syscall × Reply)) (c : Connection) : Prop where
  descriptors : log.filterMap opened = log.filterMap closed ++ c.fds
  returned : c.fds ≠ [] ↔ o.Reachable ∧ ∀ e ∈ log, Succeeded e
  reported : ∀ e ∈ log, ¬ Succeeded e →
    ∃ t, complaint o.server e.1 = some t ∧ puts t ∈ log.map Prod.fst
  ports : ∀ e ∈ log, ∀ port, e.1.port? = some port →
    port = BitVec.ofInt 16 o.port ∧ o.Reachable
  exited : ∀ status, c = .exited status → status = -1

attribute [local simp] opened closed Connection.fds Succeeded complaint puts Syscall.port?
  Options.Reachable List.filterMap_cons

theorem server_create_connects (h : o.server = true) :
    Prog.Records (Connects o) (server_create o.port) := by
  unfold server_create
  refine Prog.records_call fun sock_fd => ?_
  split_ifs with hsock
  · refine Prog.records_call fun _ => Prog.records_done ?_
    constructor <;> simp [hsock, h]
  refine Prog.records_call fun bound => ?_
  split_ifs with hbound
  · refine Prog.records_call fun _ => Prog.records_call fun _ => Prog.records_done ?_
    constructor <;> simp [hsock, hbound, h]
  refine Prog.records_call fun listening => ?_
  split_ifs with hlistening
  · refine Prog.records_call fun _ => Prog.records_call fun _ => Prog.records_done ?_
    constructor <;> simp_all
  refine Prog.records_call fun _ => Prog.records_call fun conn_fd => Prog.records_call fun _ => ?_
  have hleast := conn_fd.least
  split_ifs with hconn
  · refine Prog.records_call fun _ => Prog.records_done ?_
    have hfailed : conn_fd.value = -1 := by omega
    constructor <;> simp_all
  · refine Prog.records_call fun _ => Prog.records_done ?_
    have hopen : conn_fd.value ≠ -1 := by omega
    constructor <;> simp_all

theorem client_connect_connects (h : o.server = false) :
    Prog.Records (Connects o) (client_connect (some o.ip_addr) o.port) := by
  unfold client_connect
  split_ifs with hport
  · refine Prog.records_call fun _ => Prog.records_done ?_
    constructor <;> simp_all
    omega
  refine Prog.records_call fun _ => Prog.records_call fun sock_fd => ?_
  have hleast := sock_fd.least
  split_ifs with hsock
  · refine Prog.records_call fun _ => Prog.records_done ?_
    have hfailed : sock_fd.value = -1 := by omega
    constructor <;> simp_all
  have hopen : sock_fd.value ≠ -1 := by omega
  refine Prog.records_call fun converted => ?_
  split_ifs with hconverted
  · refine Prog.records_call fun _ => Prog.records_call fun _ => Prog.records_done ?_
    constructor <;> simp_all
  refine Prog.records_call fun connected => ?_
  have hleast' := connected.least
  split_ifs with hconnected
  · refine Prog.records_call fun _ => Prog.records_call fun _ => Prog.records_done ?_
    have hfailed : connected.value = -1 := by omega
    constructor <;> simp_all
  · refine Prog.records_call fun _ => Prog.records_done ?_
    have hsucceeded : connected.value ≠ -1 := by omega
    constructor <;> simp_all

theorem connection_connects (o : Options) : Prog.Records (Connects o) (connection o) := by
  unfold connection
  split_ifs with hserver
  · exact server_create_connects hserver
  · exact client_connect_connects (Bool.eq_false_iff.mpr hserver)

/-! ### The whole start -/

def Started.fds : Started → List ℤ
  | .game fd _ => [fd]
  | .waiting | .exited _ => []

/-- What has been called, and what comes of it. -/
structure Begins (errno : ℕ) (argv : List String) (input : List Byte)
    (log : List (Syscall × Reply)) (r : Started) : Prop where
  descriptors : log.filterMap opened = log.filterMap closed ++ r.fds
  game : r.fds ≠ [] ↔ ∃ o, parseArgs atoi Options.default argv = .ok o ∧
    (placeInput BOAT_NUM ⟨water, 0, [.boatPlace]⟩ input).isSome ∧ o.Reachable ∧
    ∀ e ∈ log, Succeeded e
  board : ∀ fd p, r = .game fd p → ∃ (o : Options) (b : Board),
    parseArgs atoi Options.default argv = .ok o ∧ p = Player.start b.grid o.server errno
  failure : ∀ status, r = .exited status → status ≠ EXIT_SUCCESS
  reported : ∀ e ∈ log, ¬ Succeeded e → ∃ o t, parseArgs atoi Options.default argv = .ok o ∧
    complaint o.server e.1 = some t ∧ puts t ∈ log.map Prod.fst
  ports : ∀ e ∈ log, ∀ port, e.1.port? = some port → ∃ o,
    parseArgs atoi Options.default argv = .ok o ∧
    (port.toNat : ℤ) = if o.server then o.port % 65536 else o.port

theorem printAll_records {Q : List (Syscall × Reply) → Started → Prop} (lines : List String)
    {r : Started} (h : ∀ log : List (Syscall × Reply),
      (∀ e ∈ log, ∃ text, e.1 = .printf text) → Q log r) :
    Prog.Records Q (printAll lines (done r)) := by
  induction lines generalizing Q with
  | nil => exact Prog.records_done (h [] (by simp))
  | cons line lines ih =>
    refine Prog.records_call fun reply => ih fun log hlog => h _ ?_
    intro e he
    rcases List.mem_cons.mp he with rfl | he
    · exact ⟨line, rfl⟩
    · exact hlog e he

theorem board_of_placeInput {input after : List Byte} {s : Placing}
    (h : placeInput BOAT_NUM ⟨water, 0, [.boatPlace]⟩ input = some (s, after)) :
    ∃ b : Board, b.grid = s.grid := by
  obtain ⟨cells, out, _, hloop⟩ := placeInput_cells h
  have hgrid := @placeLoop_grid BOAT_NUM ⟨water, 0, [.boatPlace]⟩ cells
  rw [hloop] at hgrid
  exact ⟨⟨s.grid, cells, hgrid.symm⟩, rfl⟩

theorem port_toNat (h : o.Reachable) :
    ((BitVec.ofInt 16 o.port).toNat : ℤ) = if o.server then o.port % 65536 else o.port := by
  have hlow : PORT_MIN = 1024 := rfl
  have hhigh : PORT_MAX = 65535 := rfl
  rw [BitVec.toNat_ofInt]
  split_ifs with hserver
  · omega
  · rcases h with hs | hrange
    · exact absurd hs hserver
    · omega

theorem Connects.begins {errno : ℕ} {argv : List String} {input after : List Byte} {s : Placing}
    {log : List (Syscall × Reply)} {c : Connection} (h : Connects o log c)
    (hargs : parseArgs atoi Options.default argv = .ok o)
    (hplaced : placeInput BOAT_NUM ⟨water, 0, [.boatPlace]⟩ input = some (s, after)) :
    Begins atoi errno argv input log (enter s.grid o.server errno c) := by
  have hfds : (enter s.grid o.server errno c).fds = c.fds := by
    cases c with
    | exited status => rfl
    | returned fd =>
      simp only [enter, Connection.fds]
      split_ifs <;> rfl
  refine ⟨?_, ?_, ?_, ?_, ?_, ?_⟩
  · rw [hfds, h.descriptors]
  · rw [hfds, h.returned, hargs, hplaced]
    constructor
    · rintro ⟨hreachable, hall⟩
      exact ⟨o, rfl, rfl, hreachable, hall⟩
    · rintro ⟨o', ho', _, hreachable, hall⟩
      obtain rfl := Except.ok.inj ho'
      exact ⟨hreachable, hall⟩
  · intro fd p hgame
    obtain ⟨b, hb⟩ := board_of_placeInput hplaced
    refine ⟨o, b, hargs, ?_⟩
    cases c with
    | exited status => cases hgame
    | returned fd =>
      rw [enter] at hgame
      split_ifs at hgame
      cases hgame
      rw [hb]
  · intro status hexit
    cases c with
    | exited status =>
      cases hexit
      rw [h.exited status rfl]
      decide
    | returned fd =>
      rw [enter] at hexit
      split_ifs at hexit
      cases hexit
      decide
  · intro e he hfailed
    obtain ⟨t, ht, hprinted⟩ := h.reported e he hfailed
    exact ⟨o, t, hargs, ht, hprinted⟩
  · intro e he port hport
    obtain ⟨rfl, hreachable⟩ := h.ports e he port hport
    exact ⟨o, hargs, port_toNat hreachable⟩

theorem main_begins (errno : ℕ) (argv : List String) (input : List Byte) :
    Prog.Records (Begins atoi errno argv input) (main atoi errno argv input) := by
  unfold main
  cases hargs : parseArgs atoi Options.default argv with
  | error e =>
    refine printAll_records e.lines fun log hlog => ?_
    have hquiet : log.filterMap opened = [] ∧ log.filterMap closed = [] ∧
        ∀ e ∈ log, Succeeded e := by
      refine ⟨List.filterMap_eq_nil_iff.mpr ?_, List.filterMap_eq_nil_iff.mpr ?_, ?_⟩
      all_goals
        rintro ⟨call, reply⟩ he
        obtain ⟨text, rfl⟩ := hlog _ he
        simp
    obtain ⟨hopened, hclosed, hall⟩ := hquiet
    refine ⟨by rw [hopened, hclosed]; rfl, ?_, ?_, ?_, ?_, ?_⟩
    · simp [Started.fds, hargs]
    · rintro fd p ⟨⟩
    · rintro status ⟨⟩
      decide
    · exact fun e he hfailed => absurd (hall e he) hfailed
    · rintro ⟨call, reply⟩ he port hport
      obtain ⟨text, rfl⟩ := hlog _ he
      cases hport
  | ok o =>
    cases hplaced : placeInput BOAT_NUM ⟨water, 0, [.boatPlace]⟩ input with
    | none =>
      refine Prog.records_done ⟨rfl, ?_, ?_, ?_, ?_, ?_⟩
      · simp [Started.fds, hplaced]
      · rintro fd p ⟨⟩
      · rintro status ⟨⟩
      · simp
      · simp
    | some placing =>
      obtain ⟨s, after⟩ := placing
      exact Prog.Records.map ((connection_connects o).imp fun _ _ h =>
        h.begins atoi hargs hplaced)

end Startup

end SyeLabs.Battleship
