import ExactLP.Proofs.Runs

/-!
# Proofs.InStep — two computations that go in step

Two outcomes agree when both are results that a relation holds of, or both are faults of one kind.  Two
computations go in step when from related states their outcomes agree and the states after them are related
again, in one way after results and in another one after faults.

* `Agree.bind`, `Agree.foldlM`: computations without a state.
* `InStep.bind`, `InStep.get_bind`, `InStep.forM`: one rule for each combinator.
-/

namespace ExactLP

variable {σ τ α β γ δ : Type}

/-- Two results are related, or two faults have one kind. -/
def Agree (R : α → β → Prop) : Except Fault α → Except Fault β → Prop
  | .ok a, .ok b => R a b
  | .error e, .error f => e.kind = f.kind
  | _, _ => False

/-- The outcomes agree, and the states are related as results or as faults ask. -/
def Ends (E : σ → τ → Prop) (R : α → β → Prop) (S : σ → τ → Prop) : Except Fault α × σ → Except Fault β × τ → Prop
  | (.ok a, s), (.ok b, t) => R a b ∧ S s t
  | (.error e, s), (.error f, t) => e.kind = f.kind ∧ E s t
  | _, _ => False

/-- From states that `S` relates, both computations go through with results that `R` relates in states that `S'`
relates, or both fail for the same kind of reason in states that `E` relates. -/
def InStep (E S : σ → τ → Prop) (x : ExceptT Fault (StateM σ) α) (y : ExceptT Fault (StateM τ) β) (R : α → β → Prop)
    (S' : σ → τ → Prop) : Prop :=
  ∀ s t, S s t → Ends E R S' (x.run s) (y.run t)

/-! ## Computations without a state -/

section Outcomes

variable {R : α → β → Prop} {Q : γ → δ → Prop} {x : Except Fault α} {y : Except Fault β}

/-- Two outcomes that agree: both results or both faults. -/
theorem Agree.cases (h : Agree R x y) :
    (∃ a b, x = .ok a ∧ y = .ok b ∧ R a b) ∨ ∃ e f, x = .error e ∧ y = .error f ∧ e.kind = f.kind := by
  cases x <;> cases y
  · exact Or.inr ⟨_, _, rfl, rfl, h⟩
  · exact h.elim
  · exact h.elim
  · exact Or.inl ⟨_, _, rfl, rfl, h⟩

theorem Agree.exists_of_ok {a : α} (h : Agree R (.ok a) y) : ∃ b, y = .ok b ∧ R a b := by
  cases y with
  | error f => exact h.elim
  | ok b => exact ⟨b, rfl, h⟩

theorem Agree.mono {R' : α → β → Prop} (h : Agree R x y) (hR : ∀ a b, R a b → R' a b) : Agree R' x y := by
  rcases h.cases with ⟨a, b, rfl, rfl, hab⟩ | ⟨e, f, rfl, rfl, hkind⟩
  · exact hR a b hab
  · exact hkind

theorem Agree.refl {P : α → α → Prop} (h : ∀ a, x = .ok a → P a a) : Agree P x x := by
  cases x with
  | error e => rfl
  | ok a => exact h a rfl

theorem agree_self (x : Except Fault α) : Agree Eq x x := Agree.refl fun _ _ => rfl

theorem Agree.bind {f : α → Except Fault γ} {g : β → Except Fault δ} (h : Agree R x y)
    (hf : ∀ a b, R a b → Agree Q (f a) (g b)) : Agree Q (x >>= f) (y >>= g) := by
  rcases h.cases with ⟨a, b, rfl, rfl, hab⟩ | ⟨e, f, rfl, rfl, hkind⟩
  · exact hf a b hab
  · exact hkind

theorem Agree.foldlM {f : α → γ → Except Fault α} {g : β → γ → Except Fault β} {xs : List γ} {a : α} {b : β}
    (hstep : ∀ c ∈ xs, ∀ a b, R a b → Agree R (f a c) (g b c)) (h : R a b) :
    Agree R (xs.foldlM f a) (xs.foldlM g b) := by
  induction xs generalizing a b with
  | nil => exact h
  | cons c rest ih =>
    rw [List.foldlM_cons, List.foldlM_cons]
    refine (hstep c List.mem_cons_self a b h).bind fun a' b' hab => ?_
    exact ih (fun d hd => hstep d (List.mem_cons_of_mem _ hd)) hab

end Outcomes

/-! ## Computations with a state -/

section Computations

variable {E S S' S'' : σ → τ → Prop} {R : α → β → Prop} {Q : γ → δ → Prop}
  {x : ExceptT Fault (StateM σ) α} {y : ExceptT Fault (StateM τ) β}

theorem Ends.agree {p : Except Fault α × σ} {q : Except Fault β × τ} (h : Ends E R S p q) : Agree R p.1 q.1 := by
  obtain ⟨_ | a, s⟩ := p <;> obtain ⟨_ | b, t⟩ := q
  · exact h.1
  · exact h.elim
  · exact h.elim
  · exact h.1

/-- What holds of the states after results and after faults holds of the states in any case. -/
theorem Ends.states {p : Except Fault α × σ} {q : Except Fault β × τ} (h : Ends E R S p q)
    (hS : ∀ s t, S s t → E s t) : E p.2 q.2 := by
  obtain ⟨_ | a, s⟩ := p <;> obtain ⟨_ | b, t⟩ := q
  · exact h.2
  · exact h.elim
  · exact h.elim
  · exact hS s t h.2

theorem Ends.of_agree {o : Except Fault α} {o' : Except Fault β} {s : σ} {t : τ} (h : Agree R o o') (hS : S s t)
    (hE : E s t) : Ends E R S (o, s) (o', t) := by
  rcases h.cases with ⟨a, b, rfl, rfl, hab⟩ | ⟨e, f, rfl, rfl, hkind⟩
  · exact ⟨hab, hS⟩
  · exact ⟨hkind, hE⟩

theorem inStep_pure {a : α} {b : β} (h : R a b) : InStep E S (pure a) (pure b) R S := fun _ _ hs => ⟨h, hs⟩

theorem inStep_throw {e f : Fault} (hE : ∀ s t, S s t → E s t) (h : e.kind = f.kind) :
    InStep E S (throw e) (throw f) R S' :=
  fun s t hs => ⟨h, hE s t hs⟩

theorem inStep_lift {x : Except Fault α} {y : Except Fault β} (hE : ∀ s t, S s t → E s t) (h : Agree R x y) :
    InStep E S (liftM x) (liftM y) R S :=
  fun s t hs => Ends.of_agree h hs (hE s t hs)

theorem inStep_modify {f : σ → σ} {g : τ → τ} (h : ∀ s t, S s t → S' (f s) (g t)) :
    InStep E S (modify f : ExceptT Fault (StateM σ) PUnit) (modify g : ExceptT Fault (StateM τ) PUnit) Eq S' :=
  fun s t hs => ⟨rfl, h s t hs⟩

theorem inStep_set {s : σ} {t : τ} (h : S' s t) :
    InStep E S (set s : ExceptT Fault (StateM σ) PUnit) (set t : ExceptT Fault (StateM τ) PUnit) Eq S' :=
  fun _ _ _ => ⟨rfl, h⟩

theorem InStep.bind {f : α → ExceptT Fault (StateM σ) γ} {g : β → ExceptT Fault (StateM τ) δ}
    (h : InStep E S x y R S') (hf : ∀ a b, R a b → InStep E S' (f a) (g b) Q S'') :
    InStep E S (x >>= f) (y >>= g) Q S'' := by
  intro s t hs
  have hfirst := h s t hs
  rw [run_bind, run_bind]
  generalize x.run s = p at hfirst ⊢
  generalize y.run t = q at hfirst ⊢
  obtain ⟨_ | a, s'⟩ := p <;> obtain ⟨_ | b, t'⟩ := q
  · exact hfirst
  · exact hfirst.elim
  · exact hfirst.elim
  · exact hf a b hfirst.1 s' t' hfirst.2

/-- What every result of the first computation has may be added to what the results have in common. -/
theorem InStep.ensures {P : α → Prop} (h : InStep E S x y R S') (hx : Ensures x fun _ a _ => P a) :
    InStep E S x y (fun a b => R a b ∧ P a) S' := by
  intro s t hs
  have hends := h s t hs
  rcases hrun : x.run s with ⟨_ | a, s'⟩
  · rw [hrun] at hends
    generalize y.run t = q at hends ⊢
    obtain ⟨_ | b, t'⟩ := q
    · exact hends
    · exact hends.elim
  · rw [hrun] at hends
    generalize y.run t = q at hends ⊢
    obtain ⟨_ | b, t'⟩ := q
    · exact hends.elim
    · exact ⟨⟨hends.1, hx s a s' hrun⟩, hends.2⟩

theorem InStep.get_bind {f : σ → ExceptT Fault (StateM σ) γ} {g : τ → ExceptT Fault (StateM τ) δ}
    (h : ∀ s t, S s t → InStep E S (f s) (g t) Q S') : InStep E S (get >>= f) (get >>= g) Q S' :=
  fun s t hs => h s t hs s t hs

theorem InStep.forM {f : γ → ExceptT Fault (StateM σ) PUnit} {g : γ → ExceptT Fault (StateM τ) PUnit} {xs : List γ}
    (h : ∀ a ∈ xs, InStep E S (f a) (g a) Eq S) : InStep E S (xs.forM f) (xs.forM g) Eq S := by
  induction xs with
  | nil => exact inStep_pure rfl
  | cons a rest ih =>
    exact (h a List.mem_cons_self).bind fun _ _ _ => ih fun c hc => h c (List.mem_cons_of_mem _ hc)

/-- A computation goes in step with itself. -/
theorem inStep_self {E : σ → σ → Prop} (hE : ∀ s, E s s) (x : ExceptT Fault (StateM σ) α) :
    InStep E Eq x x Eq Eq := by
  rintro s _ rfl
  rcases x.run s with ⟨_ | a, t⟩
  · exact ⟨rfl, hE t⟩
  · exact ⟨rfl, rfl⟩

end Computations

end ExactLP
