import Mathlib.Data.List.Basic

/-!
# Programs that make calls

A program is a tree: it is done, or it makes a call and goes on with the answer. Two
programs that are equal make the same calls under the same answers, whatever they were
built from.
-/

namespace SyeLabs.Interaction

inductive Prog (C A R : Type*) where
  | done (r : R)
  | call (c : C) (next : A → Prog C A R)

namespace Prog

variable {C A R E α : Type*}

/-- A call whose answer is not looked at. -/
def act (c : C) (next : Prog C A R) : Prog C A R := call c fun _ => next

/-- A step that may end the program. -/
def attempt (stop : E → R) (e : Except E α) (next : α → Prog C A R) : Prog C A R :=
  match e with
  | .error f => done (stop f)
  | .ok a => next a

/-- The same calls, with another end. -/
def map {S : Type*} (f : R → S) : Prog C A R → Prog C A S
  | done r => done (f r)
  | call c next => call c fun a => (next a).map f

/-- The calls, when they are answered by `answers` one after the other. -/
def trace : Prog C A R → (ℕ → A) → List C
  | done _, _ => []
  | call c next, answers => c :: (next (answers 0)).trace fun n => answers (n + 1)

/-- What the program ends with. -/
def result : Prog C A R → (ℕ → A) → R
  | done r, _ => r
  | call _ next, answers => (next (answers 0)).result fun n => answers (n + 1)

/-- The calls with the answers to them. -/
def log : Prog C A R → (ℕ → A) → List (C × A)
  | done _, _ => []
  | call c next, answers => (c, answers 0) :: (next (answers 0)).log fun n => answers (n + 1)

/-- The places of the program that answers to its calls lead to. -/
inductive Reaches (p : Prog C A R) : Prog C A R → Prop where
  | start : Reaches p p
  | answer {c : C} {next : A → Prog C A R} (a : A) : Reaches p (call c next) → Reaches p (next a)

/-- However the calls are answered, the program ends with something in `P`. -/
def Ends (P : R → Prop) (p : Prog C A R) : Prop := ∀ answers, P (p.result answers)

/-- However the calls are answered, `Q` holds of the log and of what the program ends with. -/
def Records (Q : List (C × A) → R → Prop) (p : Prog C A R) : Prop :=
  ∀ answers, Q (p.log answers) (p.result answers)

variable {P : R → Prop} {stop : E → R} {next : α → Prog C A R}

@[simp] theorem trace_done (r : R) (answers : ℕ → A) :
    (done r : Prog C A R).trace answers = [] := rfl

theorem trace_call (c : C) (next : A → Prog C A R) (answers : ℕ → A) :
    (call c next).trace answers = c :: (next (answers 0)).trace fun n => answers (n + 1) := rfl

@[simp] theorem attempt_ok (a : α) : attempt stop (.ok a) next = next a := rfl

@[simp] theorem attempt_error (f : E) : attempt stop (.error f) next = done (stop f) := rfl

theorem ends_done {r : R} (h : P r) : Ends P (done r : Prog C A R) := fun _ => h

theorem ends_call {c : C} {next : A → Prog C A R} (h : ∀ a, Ends P (next a)) :
    Ends P (call c next) := fun answers => h (answers 0) fun n => answers (n + 1)

theorem ends_act {c : C} {p : Prog C A R} (h : Ends P p) : Ends P (act c p) :=
  ends_call fun _ => h

theorem ends_attempt {e : Except E α} (herror : ∀ f, e = .error f → P (stop f))
    (hok : ∀ a, e = .ok a → Ends P (next a)) : Ends P (attempt stop e next) := by
  cases e with
  | error f => exact ends_done (herror f rfl)
  | ok a => exact hok a rfl

variable {Q Q' : List (C × A) → R → Prop}

theorem records_done {r : R} (h : Q [] r) : Records Q (done r) := fun _ => h

theorem records_call {c : C} {next : A → Prog C A R}
    (h : ∀ a, Records (fun log r => Q ((c, a) :: log) r) (next a)) : Records Q (call c next) :=
  fun answers => h (answers 0) fun n => answers (n + 1)

theorem records_attempt {e : Except E α} {stop : E → R} {next : α → Prog C A R}
    (herror : ∀ f, e = .error f → Q [] (stop f)) (hok : ∀ a, e = .ok a → Records Q (next a)) :
    Records Q (attempt stop e next) := by
  cases e with
  | error f => exact records_done (herror f rfl)
  | ok a => exact hok a rfl

/-- What a call says about the rest of the program. -/
theorem Records.answer {c : C} {next : A → Prog C A R} (h : Records Q (call c next)) (a : A) :
    Records (fun log r => Q ((c, a) :: log) r) (next a) := by
  intro answers
  let all : ℕ → A := fun n => match n with
    | 0 => a
    | n + 1 => answers n
  exact h all

theorem Records.imp {p : Prog C A R} (h : Records Q p) (himp : ∀ log r, Q log r → Q' log r) :
    Records Q' p := fun answers => himp _ _ (h answers)

/- Every answer in the log is one of those given. -/
theorem answer_of_mem_log {p : Prog C A R} {answers : ℕ → A} {c : C × A}
    (h : c ∈ p.log answers) : ∃ n, c.2 = answers n := by
  induction p generalizing answers with
  | done r => exact absurd h List.not_mem_nil
  | call _ next ih =>
    rcases List.mem_cons.mp h with rfl | hrest
    · exact ⟨0, rfl⟩
    · obtain ⟨n, hn⟩ := ih _ hrest
      exact ⟨n + 1, hn⟩

theorem log_map {S : Type*} (f : R → S) (p : Prog C A R) (answers : ℕ → A) :
    (p.map f).log answers = p.log answers := by
  induction p generalizing answers with
  | done r => rfl
  | call c next ih => rw [map, log, log, ih]

theorem result_map {S : Type*} (f : R → S) (p : Prog C A R) (answers : ℕ → A) :
    (p.map f).result answers = f (p.result answers) := by
  induction p generalizing answers with
  | done r => rfl
  | call c next ih => rw [map, result, result, ih]

theorem Records.map {S : Type*} {f : R → S} {p : Prog C A R} {Q : List (C × A) → S → Prop}
    (h : Records (fun log r => Q log (f r)) p) : Records Q (p.map f) := by
  intro answers
  rw [log_map, result_map]
  exact h answers

theorem Ends.records {p : Prog C A R} {P : R → Prop} (h : Ends P p)
    (himp : ∀ log r, P r → Q log r) : Records Q p := fun answers => himp _ _ (h answers)

theorem Reaches.act {p q : Prog C A R} {c : C} (a : A) (h : p.Reaches (act c q)) :
    p.Reaches q := h.answer a

end Prog

end SyeLabs.Interaction
