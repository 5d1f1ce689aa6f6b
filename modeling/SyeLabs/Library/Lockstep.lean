import SyeLabs.Library.Run

/-!
# Two systems driven by the same events

What a run shows is the list of its observations, step after step. Two states that
are alike and stay alike under every event show the same.
-/

namespace SyeLabs.Run

variable {σ τ ε ω : Type*}

/-- The observations made along a run. -/
def observe (step : σ → ε → Option σ) (obs : σ → ε → List ω) : σ → List ε → List ω
  | _, [] => []
  | s, e :: es => obs s e ++ match step s e with
    | none => []
    | some s' => observe step obs s' es

variable {step : σ → ε → Option σ} {step' : τ → ε → Option τ}
  {obs : σ → ε → List ω} {obs' : τ → ε → List ω}

theorem observe_cons {s s' : σ} {e : ε} (h : step s e = some s') (es : List ε) :
    observe step obs s (e :: es) = obs s e ++ observe step obs s' es := by
  rw [observe, h]

theorem meets_of_observe {K : ω → Prop} {s : σ} {es : List ε}
    (h : ∀ x ∈ observe step obs s es, K x) :
    Meets step (fun s e => ∀ x ∈ obs s e, K x) s es := by
  induction es generalizing s with
  | nil => trivial
  | cons e es ih =>
    refine ⟨fun x hx => h x (List.mem_append_left _ hx), fun s' hs' => ih fun x hx => h x ?_⟩
    rw [observe_cons hs']
    exact List.mem_append_right _ hx

/-- A relation that matched steps keep is kept by matched runs. -/
theorem exec_simulates {R : σ → τ → Prop} {G : σ → ε → Prop}
    (hstep : ∀ s t e s', R s t → G s e → step s e = some s' → ∃ t', step' t e = some t' ∧ R s' t')
    {s s' : σ} {t : τ} {es : List ε} (hR : R s t) (hG : Meets step G s es)
    (hrun : exec step s es = some s') : ∃ t', exec step' t es = some t' ∧ R s' t' := by
  induction es generalizing s t with
  | nil =>
    cases hrun
    exact ⟨t, rfl, hR⟩
  | cons e es ih =>
    obtain ⟨u, hu, hrest⟩ := exec_cons_some hrun
    obtain ⟨v, hv, hR'⟩ := hstep s t e u hR hG.1 hu
    obtain ⟨t', ht', hend⟩ := ih hR' (hG.2 u hu) hrest
    refine ⟨t', ?_, hend⟩
    rw [exec_cons, hv]
    exact ht'

/-- Where matched steps show the same, matched runs do. -/
theorem observe_lockstep {R : σ → τ → Prop} {G : σ → ε → Prop}
    (hstep : ∀ s t e s', R s t → G s e → step s e = some s' → ∃ t', step' t e = some t' ∧ R s' t')
    (hobs : ∀ s t e, R s t → obs' t e = obs s e)
    {s s' : σ} {t : τ} {es : List ε} (hR : R s t) (hG : Meets step G s es)
    (hrun : exec step s es = some s') : observe step' obs' t es = observe step obs s es := by
  induction es generalizing s t with
  | nil => rfl
  | cons e es ih =>
    obtain ⟨u, hu, hrest⟩ := exec_cons_some hrun
    obtain ⟨v, hv, hR'⟩ := hstep s t e u hR hG.1 hu
    rw [observe_cons hu, observe_cons hv, hobs s t e hR, ih hR' (hG.2 u hu) hrest]

end SyeLabs.Run
