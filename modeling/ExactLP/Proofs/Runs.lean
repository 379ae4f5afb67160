import ExactLP.Fault
import Mathlib.Data.List.Forall2

/-!
# Proofs.Runs — runs of computations that keep their state at a fault

The runs of a computation over `ExceptT Fault (StateM σ)` from a state: what each combinator does, and
how a loop over a list is reasoned about.

* `run_bind`, `run_lift`, …: one equation for each combinator.
* `run_bind_of_ok`, `ok_of_run_bind`: a sequence through its first part, forwards and backwards.
* `Ensures`: what every run that goes through relates, one rule for each combinator.
* `run_forM`: a loop goes through when each turn takes the invariant one element further; `mapM_ok` says
  so of a loop without a state, and `forall₂_of_mapM` what such a loop has made.
-/

namespace ExactLP

variable {σ α β : Type}

section Combinators

variable (s : σ)

theorem run_bind (x : ExceptT Fault (StateM σ) α) (f : α → ExceptT Fault (StateM σ) β) :
    (x >>= f).run s =
      match x.run s with
      | (.ok a, t) => (f a).run t
      | (.error e, t) => (.error e, t) := by
  show (match x.run s with | (a, t) => (ExceptT.bindCont f a) t) = _
  rcases x.run s with ⟨_ | _, t⟩ <;> rfl

theorem run_throw (e : Fault) : (throw e : ExceptT Fault (StateM σ) α).run s = (.error e, s) := rfl

theorem run_get : (get : ExceptT Fault (StateM σ) σ).run s = (.ok s, s) := rfl

theorem run_modify (f : σ → σ) : (modify f : ExceptT Fault (StateM σ) PUnit).run s = (.ok ⟨⟩, f s) := rfl

/-- A computation without state leaves the state. -/
theorem run_lift (x : Except Fault α) : (liftM x : ExceptT Fault (StateM σ) α).run s = (x, s) := rfl

end Combinators

section Sequences

variable {s t u : σ} {x : ExceptT Fault (StateM σ) α} {f : α → ExceptT Fault (StateM σ) β} {a : α} {b : β}
  {e : Fault}

theorem run_bind_of_ok (h : x.run s = (.ok a, t)) : (x >>= f).run s = (f a).run t := by
  rw [run_bind, h]

theorem run_bind_of_error (h : x.run s = (.error e, t)) : (x >>= f).run s = (.error e, t) := by
  rw [run_bind, h]

theorem ok_of_run_bind (h : (x >>= f).run s = (.ok b, u)) :
    ∃ a t, x.run s = (.ok a, t) ∧ (f a).run t = (.ok b, u) := by
  rw [run_bind] at h
  rcases hx : x.run s with ⟨e | a, t⟩
  · rw [hx] at h
    exact absurd (Prod.ext_iff.mp h).1 (by simp)
  · rw [hx] at h
    exact ⟨a, t, rfl, h⟩

/-- A faulty sequence fails in its first or in its second part. -/
theorem error_of_run_bind (h : (x >>= f).run s = (.error e, u)) :
    x.run s = (.error e, u) ∨ ∃ a t, x.run s = (.ok a, t) ∧ (f a).run t = (.error e, u) := by
  rw [run_bind] at h
  rcases hx : x.run s with ⟨e' | a, t⟩
  · rw [hx] at h
    cases h
    exact Or.inl rfl
  · rw [hx] at h
    exact Or.inr ⟨a, t, rfl, h⟩

end Sequences

/-! ## Loops -/

/-- A loop over a list ends in the invariant of the whole list when each turn takes the invariant of the
elements before to that of one element more. -/
theorem run_forM {l : List α} {f : α → ExceptT Fault (StateM σ) PUnit} {P : List α → σ → Prop}
    (hstep : ∀ before a after, l = before ++ a :: after → ∀ s, P before s →
      ∃ t, (f a).run s = (.ok ⟨⟩, t) ∧ P (before ++ [a]) t)
    {s : σ} (hs : P [] s) : ∃ t, (l.forM f).run s = (.ok ⟨⟩, t) ∧ P l t := by
  suffices hgen : ∀ before after, l = before ++ after → ∀ s, P before s →
      ∃ t, (after.forM f).run s = (.ok ⟨⟩, t) ∧ P l t from hgen [] l rfl s hs
  intro before after
  induction after generalizing before with
  | nil =>
    intro hl s hP
    rw [List.append_nil] at hl
    exact ⟨s, rfl, hl ▸ hP⟩
  | cons a after ih =>
    intro hl s hP
    obtain ⟨t, hrun, hPt⟩ := hstep before a after hl s hP
    obtain ⟨u, hrest, hPu⟩ := ih (before ++ [a]) (by rw [hl, List.append_assoc]; rfl) t hPt
    exact ⟨u, (run_bind_of_ok hrun).trans hrest, hPu⟩

/-! ## Every run -/

section Ensures

/-- Every run that goes through relates the state before it, its result and the state after it. -/
def Ensures (x : ExceptT Fault (StateM σ) α) (Q : σ → α → σ → Prop) : Prop :=
  ∀ s a t, x.run s = (.ok a, t) → Q s a t

variable {x : ExceptT Fault (StateM σ) α} {f : α → ExceptT Fault (StateM σ) β} {e : Except Fault α}
  {P Q : σ → α → σ → Prop} {R : σ → β → σ → Prop} {a : α}

theorem Ensures.mono (h : Ensures x P) (hPQ : ∀ s a t, P s a t → Q s a t) : Ensures x Q :=
  fun s a t hrun => hPQ s a t (h s a t hrun)

theorem ensures_pure (h : ∀ s, Q s a s) : Ensures (pure a) Q := by
  intro s b t hrun
  obtain ⟨hout, rfl⟩ := Prod.mk.inj hrun
  exact Except.ok.inj hout ▸ h s

theorem ensures_throw (fault : Fault) : Ensures (throw fault) Q := by
  intro s a t hrun
  cases (Prod.mk.inj hrun).1

theorem ensures_lift (h : ∀ a, e = .ok a → ∀ s, Q s a s) : Ensures (liftM e) Q := by
  intro s a t hrun
  obtain ⟨hout, rfl⟩ := Prod.mk.inj hrun
  exact h a hout s

theorem ensures_bind_lift (h : ∀ a, e = .ok a → Ensures (f a) R) : Ensures (liftM e >>= f) R := by
  intro s b t hrun
  obtain ⟨a, u, hlift, hrest⟩ := ok_of_run_bind hrun
  obtain ⟨ha, rfl⟩ := Prod.mk.inj hlift
  exact h a ha s b t hrest

end Ensures

/-! ## Loops without a state -/

section Except

variable {ε : Type} {l : List α}

theorem ok_of_bind {x : Except ε α} {f : α → Except ε β} {b : β} (h : (x >>= f) = .ok b) :
    ∃ a, x = .ok a ∧ f a = .ok b := by
  cases x with
  | error e => cases h
  | ok a => exact ⟨a, rfl, h⟩

theorem ok_of_lift {x : Except NumberFault α} {a : α} (h : (liftM x : Except Fault α) = .ok a) : x = .ok a := by
  cases x with
  | error cause => cases h
  | ok b => exact congrArg _ (Except.ok.inj h)

theorem error_of_bind {x : Except ε α} {f : α → Except ε β} {e : ε} (h : (x >>= f) = .error e) :
    x = .error e ∨ ∃ a, x = .ok a ∧ f a = .error e := by
  cases x with
  | error e' => exact Or.inl (congrArg Except.error (Except.error.inj h))
  | ok a => exact Or.inr ⟨a, rfl, h⟩

theorem mapM_ok {f : α → Except ε β} {g : α → β} (hstep : ∀ a ∈ l, f a = .ok (g a)) :
    l.mapM f = .ok (l.map g) := by
  induction l with
  | nil => rfl
  | cons a rest ih =>
    rw [List.mapM_cons, hstep a List.mem_cons_self, ih fun c hc => hstep c (List.mem_cons_of_mem _ hc)]
    rfl

/-- What a loop that goes through makes of each element. -/
theorem forall₂_of_mapM {f : α → Except ε β} {l' : List β} (h : l.mapM f = .ok l') :
    List.Forall₂ (fun a b => f a = .ok b) l l' := by
  induction l generalizing l' with
  | nil =>
    obtain rfl := Except.ok.inj h
    exact .nil
  | cons a rest ih =>
    rw [List.mapM_cons] at h
    obtain ⟨b, hb, h⟩ := ok_of_bind h
    obtain ⟨others, hothers, h⟩ := ok_of_bind h
    obtain rfl := Except.ok.inj h
    exact .cons hb (ih hothers)

end Except

end ExactLP
