import SyeLabs.Battleship.LastShot
import SyeLabs.Battleship.Outcome

/-!
# A forfeit is announced where the loop heeds the signal

At the prompt and in a blocked wait for a shot the signal leads to the forfeit
message. Everywhere else the player leaves without a word, unless the shot in
progress ends the game first.
-/

namespace SyeLabs.Battleship
open Duplex

namespace Game

variable {g : Game}

theorem fair_run_ends (board : Side → Board) {errno : Side → ℕ} (herrno : ∀ s, errno s ≠ EINTR)
    {es : List (Side × Act)} (hes : ∀ e ∈ es, e.2.Undisturbed)
    (hrun : Run.exec Game.step (start board errno) es = some g) :
    g.Fair ∧ ∀ t status, (g.party t).pc = .ended status → status = .success := by
  have hstep : ∀ (g : Game) (e : Side × Act) (g' : Game),
      (g.Fair ∧ ∀ t status, (g.party t).pc = .ended status → status = .success) →
      e.2.Undisturbed → g.step e = some g' →
      g'.Fair ∧ ∀ t status, (g'.party t).pc = .ended status → status = .success := by
    intro g e g' ⟨hg, hends⟩ he hstep
    obtain ⟨hturn, hfair⟩ := hg.step he hstep
    refine ⟨hfair, Side.forall_of e.1 (fun status hend => success_of_turn hturn hend) ?_⟩
    rw [(turn_frame (hg.wellFormed.step hstep).1).1]
    exact hends e.1.other
  exact Run.exec_invariant_of_forall hstep
    ⟨fair_start board herrno, fun t status hend => by simp [start, Player.start] at hend⟩ hes hrun

theorem forfeit_announced (board : Side → Board) (errno : Side → ℕ) (herrno : ∀ s, errno s ≠ EINTR)
    (s : Side) (sig : Act) (hsig : sig.Signal) (es₁ es₂ : List (Side × Act))
    (hes₁ : ∀ e ∈ es₁, e.2.Undisturbed) (hes₂ : ∀ e ∈ es₂, OnlySignals s e) (g₁ g : Game)
    (hrun₁ : Run.exec step (start board errno) es₁ = some g₁)
    (hrun₂ : Run.exec step g₁ ((s, sig) :: es₂) = some g) :
    ((g₁.party s).Heeds sig → g.Announced s) ∧ (g₁.ShotDecides s → g.SettledByShot s) := by
  obtain ⟨hfair, hends⟩ := fair_run_ends board herrno hes₁ hrun₁
  obtain ⟨g₂, hsignal, hrest⟩ := Run.exec_cons_some hrun₂
  constructor
  · intro hheeds
    have hquits : g.Quits s := Run.exec_invariant_of_forall
      (fun _ _ _ h he hstep => Quits.step h he hstep) (hfair.quits hsig hheeds hsignal) hes₂ hrest
    exact hquits.announced
  · intro hdecides
    rcases hfair.decides hends hsig hdecides hsignal with hsinks | hyields
    · have hsinks' : g.Sinks s := Run.exec_invariant_of_forall
        (fun _ _ _ h he hstep => Sinks.step h he hstep) hsinks hes₂ hrest
      exact hsinks'.settled
    · have hyields' : g.Yields s := Run.exec_invariant_of_forall
        (fun _ _ _ h he hstep => Yields.step h he hstep) hyields hes₂ hrest
      exact hyields'.settled

/- The server at its prompt, and the rest of the run once SIGTSTP has come. -/
def prompted : List (Side × Act) := [(server, .tau)]

def resigns : List (Side × Act) :=
  [(server, .tau), (server, .sendOk), (client, .tau), (client, .recv (.byte FORFEIT))]

/- The server about to send the shot that sinks the client's last boat. -/
def beforeLastShot : List (Side × Act) :=
  exchange server 48 0 1 ++ exchange client 53 5 2 ++ exchange server 49 1 1 ++
    exchange client 54 6 2 ++ shootAt server 50

def lastShot : List (Side × Act) :=
  [(server, .sendOk), (client, .tau), (client, .recv (.byte 2)), (client, .sendOk),
    (server, .recv (.byte 1))]

theorem forfeit_announced_firstCells :
    (∃ g₁ g, Run.exec step (start (fun _ => Player.firstCells) fun _ => 0) prompted = some g₁ ∧
      Run.exec step g₁ ((server, .interrupt) :: resigns) = some g ∧
      (g₁.party server).Heeds .interrupt ∧ (∀ t, (g.party t).closed) ∧ g.Announced server) ∧
    ∃ g₁ g, Run.exec step (start (fun _ => Player.firstCells) fun _ => 0) beforeLastShot = some g₁ ∧
      Run.exec step g₁ ((server, .sigtstp) :: lastShot) = some g ∧
      g₁.ShotDecides server ∧ (∀ t, (g.party t).closed) ∧ g.SettledByShot server := by
  constructor
  · have hfirst : (Run.exec step (start (fun _ => Player.firstCells) fun _ => 0) prompted).map
        (fun g => ((g.party server).pc, (Run.exec step g ((server, .interrupt) :: resigns)).map
          fun g => decide ((g.party server).closed ∧ (g.party client).closed))) =
        some (.getchar, some true) := by
      decide +kernel
    obtain ⟨g₁, hrun₁, hg₁⟩ := Option.map_eq_some_iff.mp hfirst
    obtain ⟨hpc, hlast⟩ := Prod.mk.inj hg₁
    obtain ⟨g, hrun₂, hclosed⟩ := Option.map_eq_some_iff.mp hlast
    obtain ⟨hserver, hclient⟩ := of_decide_eq_true hclosed
    have hheeds : (g₁.party server).Heeds .interrupt := Or.inl (Or.inl hpc)
    refine ⟨g₁, g, hrun₁, hrun₂, hheeds, Side.forall_of server hserver hclient, ?_⟩
    refine (forfeit_announced (fun _ => Player.firstCells) (fun _ => 0) (fun _ => by decide) server
      .interrupt (Or.inr rfl) prompted resigns ?_ ?_ g₁ g hrun₁ hrun₂).1 hheeds
    · simp [prompted, Act.Undisturbed, Act.Calm]
    · simp [resigns, OnlySignals, Act.Undisturbed, Act.Calm]
  · have hfirst : (Run.exec step (start (fun _ => Player.firstCells) fun _ => 0) beforeLastShot).map
        (fun g => (decide ((g.party server).pc = .send .shot 0 ∧ (g.party server).data = 2#8 ∧
            (g.party server).advGrid 2 = .default ∧ (g.party client).userGrid 2 = .boat ∧
            (g.party client).userBoats = 1),
          (Run.exec step g ((server, .sigtstp) :: lastShot)).map
            fun g => decide ((g.party server).closed ∧ (g.party client).closed))) =
        some (true, some true) := by
      decide +kernel
    obtain ⟨g₁, hrun₁, hg₁⟩ := Option.map_eq_some_iff.mp hfirst
    obtain ⟨hstate, hlast⟩ := Prod.mk.inj hg₁
    obtain ⟨hpc, hdata, hfree, hgrid, hboats⟩ := of_decide_eq_true hstate
    obtain ⟨g, hrun₂, hclosed⟩ := Option.map_eq_some_iff.mp hlast
    obtain ⟨hserver, hclient⟩ := of_decide_eq_true hclosed
    have hdecides : g₁.ShotDecides server := by
      rw [ShotDecides, hpc]
      exact ⟨2, ⟨hfree, Or.inr ⟨0, hpc, hdata⟩⟩, hgrid, hboats⟩
    refine ⟨g₁, g, hrun₁, hrun₂, hdecides, Side.forall_of server hserver hclient, ?_⟩
    refine (forfeit_announced (fun _ => Player.firstCells) (fun _ => 0) (fun _ => by decide) server
      .sigtstp (Or.inl rfl) beforeLastShot lastShot ?_ ?_ g₁ g hrun₁ hrun₂).2 hdecides
    · simp [beforeLastShot, exchange, shootAt, Act.Undisturbed, Act.Calm]
    · simp [lastShot, OnlySignals, Act.Undisturbed, Act.Calm]

/- The server has shot at cell 15 and SIGTSTP interrupts its wait for the answer; the
client answers, shoots back and finds the connection closed. -/
def shotAtLast : List (Side × Act) := shootAt server 70 ++ [(server, .sendOk)]

def findsClosed : List (Side × Act) :=
  [(client, .tau), (client, .recv (.byte 15)), (client, .sendOk)] ++ shootAt client 53 ++
    [(client, .sendOk), (client, .recv .closed)]

theorem forfeit_unannounced : ¬ ∀ (board : Side → Board) (errno : Side → ℕ),
    (∀ s, errno s ≠ EINTR) → ∀ (s : Side) (sig : Act) (es₁ es₂ : List (Side × Act)),
    sig.Signal → (∀ e ∈ es₁, e.2.Undisturbed) → (∀ e ∈ es₂, OnlySignals s e) →
    ∀ g₁ g, Run.exec step (start board errno) es₁ = some g₁ →
      Run.exec step g₁ ((s, sig) :: es₂) = some g → g₁.ShotDecides s ∨ g.Announced s := by
  intro h
  have hfirst : (Run.exec step (start (fun _ => Player.firstCells) fun _ => 0) shotAtLast).map
      (fun g => (decide ((g.party server).pc = .recvResult ∧ (g.party client).userBoats = 3),
        (Run.exec step g ((server, .interrupt) :: findsClosed)).map
          fun g => (g.party client).pc)) = some (true, some (.ended .failure)) := by
    decide +kernel
  obtain ⟨g₁, hrun₁, hg₁⟩ := Option.map_eq_some_iff.mp hfirst
  obtain ⟨hstate, hlast⟩ := Prod.mk.inj hg₁
  obtain ⟨hpc, hboats⟩ := of_decide_eq_true hstate
  obtain ⟨g, hrun₂, hfails⟩ := Option.map_eq_some_iff.mp hlast
  have hleaves := h (fun _ => Player.firstCells) (fun _ => 0) (fun _ => by decide) server .interrupt
    shotAtLast findsClosed (Or.inr rfl) (by simp [shotAtLast, shootAt, Act.Undisturbed, Act.Calm])
    (by simp [findsClosed, shootAt, OnlySignals, Act.Undisturbed, Act.Calm]) g₁ g hrun₁ hrun₂
  have hclient : server.other = client := rfl
  rcases hleaves with hdecides | hannounced
  · rw [ShotDecides, hpc] at hdecides
    simp [LastBoat, hclient, hboats] at hdecides
  · have hsuccess := (hannounced.told .failure hfails).1
    simp at hsuccess

end Game

end SyeLabs.Battleship
