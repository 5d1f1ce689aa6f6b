import Mathlib.Data.List.Induction

/-!
# Finite runs of a partial step function

A system is a step function `step : σ → ε → Option σ` on states `σ` and events
`ε`; `none` says that the event cannot happen in that state. A run is a list of
events, so a statement about every list is a statement about every interleaving
of the events it is built from.
-/

namespace SyeLabs.Run

variable {σ ε : Type*}

def exec (step : σ → ε → Option σ) : σ → List ε → Option σ
  | s, [] => some s
  | s, e :: es => (step s e).bind fun s' => exec step s' es

/-- Every event of the run satisfies `G` in the state where it is taken. -/
def Meets (step : σ → ε → Option σ) (G : σ → ε → Prop) : σ → List ε → Prop
  | _, [] => True
  | s, e :: es => G s e ∧ ∀ s', step s e = some s' → Meets step G s' es

/-- Every state visited by the run satisfies `P`, the first one included. -/
def Along (step : σ → ε → Option σ) (P : σ → Prop) : σ → List ε → Prop
  | s, [] => P s
  | s, e :: es => P s ∧ ∀ s', step s e = some s' → Along step P s' es

variable {step : σ → ε → Option σ} {G H : σ → ε → Prop} {P I : σ → Prop}

@[simp] theorem exec_nil (s : σ) : exec step s [] = some s := rfl

theorem exec_cons (s : σ) (e : ε) (es : List ε) :
    exec step s (e :: es) = (step s e).bind fun s' => exec step s' es := rfl

theorem exec_cons_some {s t : σ} {e : ε} {es : List ε} (h : exec step s (e :: es) = some t) :
    ∃ s', step s e = some s' ∧ exec step s' es = some t := by
  rw [exec_cons] at h
  exact Option.bind_eq_some_iff.mp h

theorem exec_append (s : σ) (es fs : List ε) :
    exec step s (es ++ fs) = (exec step s es).bind fun s' => exec step s' fs := by
  induction es generalizing s with
  | nil => rfl
  | cons e es ih =>
    simp only [List.cons_append, exec_cons, Option.bind_assoc]
    congr 1
    funext s'
    exact ih s'

theorem exec_invariant (hstep : ∀ s e s', I s → G s e → step s e = some s' → I s')
    {s t : σ} {es : List ε} (hI : I s) (hG : Meets step G s es)
    (hrun : exec step s es = some t) : I t := by
  -- the state in which the rest of the run starts changes with every event
  induction es generalizing s with
  | nil =>
    cases hrun
    exact hI
  | cons e es ih =>
    obtain ⟨s', hs', hrest⟩ := exec_cons_some hrun
    exact ih (hstep s e s' hI hG.1 hs') (hG.2 s' hs') hrest

theorem meets_of_forall {K : ε → Prop} (h : ∀ s e, K e → G s e) {s : σ} {es : List ε}
    (hK : ∀ e ∈ es, K e) : Meets step G s es := by
  induction es generalizing s with
  | nil => trivial
  | cons e es ih =>
    refine ⟨h s e (hK e (List.mem_cons_self ..)), fun s' _ => ih fun f hf => ?_⟩
    exact hK f (List.mem_cons_of_mem _ hf)

theorem meets_of_prefixes {s : σ} {es : List ε}
    (h : ∀ es₁ e es₂ t, es = es₁ ++ e :: es₂ → exec step s es₁ = some t → G t e) :
    Meets step G s es := by
  induction es generalizing s with
  | nil => trivial
  | cons e es ih =>
    refine ⟨h [] e es s rfl rfl, fun s' hs' => ih fun es₁ f es₂ t hes hrun => ?_⟩
    refine h (e :: es₁) f es₂ t (by rw [hes, List.cons_append]) ?_
    rw [exec_cons, hs']
    exact hrun

theorem exec_invariant_of_forall {K : ε → Prop}
    (hstep : ∀ s e s', I s → K e → step s e = some s' → I s')
    {s t : σ} {es : List ε} (hI : I s) (hK : ∀ e ∈ es, K e)
    (hrun : exec step s es = some t) : I t := by
  exact @exec_invariant σ ε step (fun _ e => K e) I hstep s t es hI
    (meets_of_forall (fun _ _ h => h) hK) hrun

theorem exec_invariant_of_step (hstep : ∀ s e s', I s → step s e = some s' → I s')
    {s t : σ} {es : List ε} (hI : I s) (hrun : exec step s es = some t) : I t :=
  exec_invariant_of_forall (K := fun _ => True) (fun s e s' hs _ => hstep s e s' hs) hI
    (fun _ _ => trivial) hrun

/- An invariant that one event can break. -/
theorem exec_invariant_of_notMem {bad : ε}
    (hstep : ∀ s e s', I s → e ≠ bad → step s e = some s' → I s')
    {s t : σ} {es : List ε} (hI : I s) (hbad : bad ∉ es) (hrun : exec step s es = some t) : I t :=
  exec_invariant_of_forall hstep hI (fun _ he => ne_of_mem_of_not_mem he hbad) hrun

theorem along_of_invariant (hstep : ∀ s e s', I s → G s e → step s e = some s' → I s')
    (hP : ∀ s, I s → P s) {s : σ} {es : List ε} (hI : I s) (hG : Meets step G s es) :
    Along step P s es := by
  induction es generalizing s with
  | nil => exact hP s hI
  | cons e es ih =>
    exact ⟨hP s hI, fun s' hs' => ih (hstep s e s' hI hG.1 hs') (hG.2 s' hs')⟩

theorem along_of_step (hstep : ∀ s e s', P s → step s e = some s' → P s') {s : σ} (hP : P s)
    (es : List ε) : Along step P s es :=
  along_of_invariant (fun s e s' hs _ => hstep s e s' hs) (fun _ h => h) hP
    (meets_of_forall (fun _ _ h => h) fun _ _ => trivial)

theorem meets_rest {s t : σ} {es fs : List ε} (h : Meets step G s (es ++ fs))
    (hrun : exec step s es = some t) : Meets step G t fs := by
  induction es generalizing s with
  | nil =>
    cases hrun
    exact h
  | cons e es ih =>
    obtain ⟨s', hs', hrest⟩ := exec_cons_some hrun
    exact ih (h.2 s' hs') hrest

theorem meets_prefix {s : σ} {es fs : List ε} (h : Meets step G s (es ++ fs)) :
    Meets step G s es := by
  induction es generalizing s with
  | nil => trivial
  | cons e es ih => exact ⟨h.1, fun s' hs' => ih (h.2 s' hs')⟩

theorem along_head {s : σ} {es : List ε} (h : Along step P s es) : P s := by
  cases es with
  | nil => exact h
  | cons e es => exact h.1

theorem along_last {s t : σ} {es : List ε} (h : Along step P s es)
    (hrun : exec step s es = some t) : P t := by
  induction es generalizing s with
  | nil =>
    cases hrun
    exact h
  | cons e es ih =>
    obtain ⟨s', hs', hrest⟩ := exec_cons_some hrun
    exact ih (h.2 s' hs') hrest

theorem meets_of_invariant (hstep : ∀ s e s', I s → G s e → step s e = some s' → I s')
    (hH : ∀ s e, I s → G s e → H s e) {s : σ} {es : List ε} (hI : I s)
    (hG : Meets step G s es) : Meets step H s es := by
  induction es generalizing s with
  | nil => trivial
  | cons e es ih =>
    exact ⟨hH s e hI hG.1, fun s' hs' => ih (hstep s e s' hI hG.1 hs') (hG.2 s' hs')⟩

/- What a property of the states and one of the steps come to, when `G` decides at
each step whether both go on. -/
theorem along_meets_iff {Q : σ → ε → Prop} (hstep : ∀ s e s', I s → step s e = some s' → I s')
    (hiff : ∀ s e s', I s → P s → step s e = some s' → ((P s' ∧ Q s e) ↔ G s e))
    {s t : σ} {es : List ε} (hI : I s) (hP : P s) (hrun : exec step s es = some t) :
    (Along step P s es ∧ Meets step Q s es) ↔ Meets step G s es := by
  induction es generalizing s with
  | nil => exact ⟨fun _ => trivial, fun _ => ⟨hP, trivial⟩⟩
  | cons e es ih =>
    obtain ⟨s', hs', hrest⟩ := exec_cons_some hrun
    have hnext := fun hP' => ih (hstep s e s' hI hs') hP' hrest
    constructor
    · rintro ⟨halong, hmeets⟩
      have hP' := along_head (halong.2 s' hs')
      refine ⟨(hiff s e s' hI hP hs').mp ⟨hP', hmeets.1⟩, fun u hu => ?_⟩
      obtain rfl := Option.some.inj (hs'.symm.trans hu)
      exact (hnext hP').mp ⟨halong.2 s' hs', hmeets.2 s' hs'⟩
    · intro hG
      obtain ⟨hP', hQ⟩ := (hiff s e s' hI hP hs').mpr hG.1
      obtain ⟨halong, hmeets⟩ := (hnext hP').mpr (hG.2 s' hs')
      refine ⟨⟨hP, fun u hu => ?_⟩, ⟨hQ, fun u hu => ?_⟩⟩
      · obtain rfl := Option.some.inj (hs'.symm.trans hu)
        exact halong
      · obtain rfl := Option.some.inj (hs'.symm.trans hu)
        exact hmeets

/-- A property that each event keeps or not, whatever the state. -/
theorem along_iff_forall {K : ε → Prop}
    (hiff : ∀ s e s', P s → step s e = some s' → (P s' ↔ K e)) {s t : σ} {es : List ε}
    (hP : P s) (hrun : exec step s es = some t) : Along step P s es ↔ ∀ e ∈ es, K e := by
  induction es generalizing s with
  | nil => exact ⟨fun _ e he => absurd he List.not_mem_nil, fun _ => hP⟩
  | cons e es ih =>
    obtain ⟨s', hs', hrest⟩ := exec_cons_some hrun
    rw [List.forall_mem_cons, ← hiff s e s' hP hs']
    constructor
    · intro halong
      have hP' := along_head (halong.2 s' hs')
      exact ⟨hP', (ih hP' hrest).mp (halong.2 s' hs')⟩
    · rintro ⟨hP', hK⟩
      refine ⟨hP, fun u hu => ?_⟩
      obtain rfl := Option.some.inj (hs'.symm.trans hu)
      exact (ih hP' hrest).mpr hK

/-- A number that some events make larger by one and the others keep. -/
theorem exec_countP {f : σ → ℕ} {K : ε → Prop} [DecidablePred K]
    (hstep : ∀ s e s', step s e = some s' → f s' = f s + if K e then 1 else 0)
    {s t : σ} {es : List ε} (hrun : exec step s es = some t) : f t = f s + es.countP K := by
  induction es generalizing s with
  | nil =>
    cases hrun
    rfl
  | cons e es ih =>
    obtain ⟨s', hs', hrest⟩ := exec_cons_some hrun
    rw [ih hrest, hstep s e s' hs', List.countP_cons]
    simp only [decide_eq_true_eq]
    omega

/-! ### Runs that end -/

/-- An invariant that also speaks of the events so far. -/
theorem exec_history {J : σ → List ε → Prop} {s t : σ} (hstart : J s [])
    (hstep : ∀ u e u' es, J u es → step u e = some u' → J u' (es ++ [e]))
    {es : List ε} (hrun : exec step s es = some t) : J t es := by
  induction es using List.reverseRecOn generalizing t with
  | nil =>
    cases hrun
    exact hstart
  | append_singleton es e ih =>
    rw [exec_append] at hrun
    obtain ⟨u, hu, hlast⟩ := Option.bind_eq_some_iff.mp hrun
    obtain ⟨t', ht', hnil⟩ := exec_cons_some hlast
    cases hnil
    exact hstep u e t es (ih hu) ht'

/-- With a rank that every step makes smaller, no run is longer than the rank at its start. -/
theorem exec_length_add_rank {rank : σ → ℕ}
    (hstep : ∀ s e s', I s → step s e = some s' → I s' ∧ rank s' < rank s)
    {s t : σ} {es : List ε} (hI : I s) (hrun : exec step s es = some t) :
    es.length + rank t ≤ rank s := by
  induction es generalizing s with
  | nil =>
    cases hrun
    exact Nat.le_of_eq (Nat.zero_add _)
  | cons e es ih =>
    obtain ⟨s', hs', hrest⟩ := exec_cons_some hrun
    obtain ⟨hI', hlt⟩ := hstep s e s' hI hs'
    have hle := ih hI' hrest
    rw [List.length_cons]
    omega

theorem exec_first_succ {s t u : σ} {stream : ℕ → ε} {k : ℕ}
    (hrun : exec step s ((List.range k).map stream) = some t)
    (hstep : step t (stream k) = some u) :
    exec step s ((List.range (k + 1)).map stream) = some u := by
  rw [List.range_succ, List.map_append, exec_append, hrun, Option.bind_some]
  simp only [List.map_cons, List.map_nil, exec_cons, hstep]
  rfl

/-- A run that goes on whenever it is not at its end, towards a smaller rank, gets there. -/
theorem exec_ends {E : σ → Prop} {rank : σ → ℕ} {s : σ} (stream : ℕ → ε)
    (hgoes : ∀ k t, exec step s ((List.range k).map stream) = some t → ¬ E t →
      ∃ t', step t (stream k) = some t' ∧ rank t' < rank t) :
    ∃ k t, exec step s ((List.range k).map stream) = some t ∧ E t := by
  by_contra hnever
  have hlong : ∀ k, ∃ t, exec step s ((List.range k).map stream) = some t ∧
      rank t + k ≤ rank s := by
    intro k
    induction k with
    | zero => exact ⟨s, rfl, Nat.le_refl _⟩
    | succ k ih =>
      obtain ⟨t, hrun, hrank⟩ := ih
      obtain ⟨t', ht', hlt⟩ := hgoes k t hrun fun hend => hnever ⟨k, t, hrun, hend⟩
      exact ⟨t', exec_first_succ hrun ht', by omega⟩
  obtain ⟨t, _, hrank⟩ := hlong (rank s + 1)
  omega

end SyeLabs.Run
