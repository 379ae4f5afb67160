import ExactLP.Proofs.Grid.Mirror
import ExactLP.Proofs.Simplex.Choice
import ExactLP.Proofs.Solution
import ExactLP.Simplex.Phases

/-!
# Proofs.Simplex.Mirror — minimizing an objective and maximizing its negation

A problem and its mirror image have opposite goals and objectives of opposite sign.  Their runs make the same
pivots: outside phase one the tableaux differ in the signs of row 0 only, and a reduced cost improves one goal
exactly when its negation improves the other; in phase one there is no difference at all.

* `Setting.mirrored`, `State.mirrored`, `Solution.mirrored`: the mirror images.
* `Mirrors`: two computations that go in step over mirrored states; `mirrors_iterate`, `mirrors_run`.
* `inStep_phaseOne`, `inStep_transition`: the phases with the same states.
* `mirrors_solve`: a whole run and its mirror image.
-/

namespace ExactLP

/-! ## Tables of values -/

section Tables

variable {κ α β : Type}

/-- Every value under its key changed. -/
def Keyed.mapValues (f : α → β) (keyed : Keyed κ α) : Keyed κ β := keyed.map fun p => (p.1, f p.2)

theorem Keyed.names_mapValues (f : α → β) (keyed : Keyed κ α) : (keyed.mapValues f).names = keyed.names :=
  List.map_map

variable [DecidableEq κ]

theorem Keyed.put_mapValues (f : α → β) (keyed : Keyed κ α) (key : κ) (value : α) :
    (keyed.mapValues f).put key (f value) = Keyed.mapValues f (keyed.put key value) := by
  induction keyed with
  | nil => rfl
  | cons p rest ih =>
    have hcons : Keyed.mapValues f (p :: rest) = (p.1, f p.2) :: Keyed.mapValues f rest := rfl
    rw [hcons, put, put, ih]
    split <;> rfl

theorem Keyed.find?_mapValues (f : α → β) (keyed : Keyed κ α) (key : κ) :
    (keyed.mapValues f).find? key = (keyed.find? key).map f := by
  induction keyed with
  | nil => rfl
  | cons p rest ih =>
    have hcons : Keyed.mapValues f (p :: rest) = (p.1, f p.2) :: Keyed.mapValues f rest := rfl
    rw [hcons, find?, find?, ih]
    split <;> rfl

end Tables

/-! ## Mirror images -/

section Images

/-- The other goal. -/
def Goal.opposite : Goal → Goal
  | .maximize => .minimize
  | .minimize => .maximize

theorem Goal.sign_opposite (goal : Goal) : goal.opposite.sign = -goal.sign := by
  cases goal <;> rfl

/-- The form with every sign changed. -/
def Terms.negated (terms : Terms) : Terms := Keyed.mapValues Neg.neg terms

theorem Terms.names_negated (terms : Terms) : terms.negated.names = terms.names :=
  Keyed.names_mapValues _ _

theorem Terms.coefficient_negated (terms : Terms) (name : String) :
    terms.negated.coefficient name = -terms.coefficient name := by
  unfold coefficient negated
  rw [Keyed.find?_mapValues]
  cases terms.find? name <;> simp

/-- The solution with the signs of the objective value, of the reduced costs and of the prices changed. -/
def Solution.mirrored (s : Solution) : Solution :=
  { s with
    objective := -s.objective
    reducedCost := s.reducedCost.mapValues Neg.neg
    dual := s.dual.mapValues Neg.neg }

namespace Simplex

/-- The setting with the opposite goal, objective and offset. -/
def Setting.mirrored (setting : Setting) : Setting :=
  { setting with
    goal := setting.goal.opposite
    objective := setting.objective.negated
    offset := -setting.offset }

/-- The state with the opposite goal and the signs of row 0 changed. -/
def State.mirrored (s : State) : State := { s with tableau := s.tableau.mirrored, goal := s.goal.opposite }

end Simplex

end Images

/-! ## Solutions -/

namespace Solution

/-- What has been read of the mirror image. -/
def Reading.mirrored (r : Reading) : Reading :=
  { r with solution := r.solution.mirrored, positive := r.positive.mapValues fun p => (p.1, -p.2) }

theorem agree_costAt (costs : List Rat) (j : Nat) :
    Agree (fun c c' => c' = -c) (Reading.costAt costs j) (Reading.costAt (costs.map Neg.neg) j) := by
  unfold Reading.costAt
  rw [List.getElem?_map]
  cases costs[j]? <;> exact rfl

theorem agree_column (levels : List (Int × Rat)) (costs : List Rat) (r : Reading) (c : Column) (j : Nat) :
    Agree (fun x x' => x' = x.mirrored) (r.column levels costs c j)
      (r.mirrored.column levels (costs.map Neg.neg) c j) := by
  unfold Reading.column
  dsimp only
  split
  · exact rfl
  · cases c.role with
    | artificial label => exact rfl
    | negativePart x => exact rfl
    | surplus label | excess label | pseudo label | decision | condition =>
      refine (agree_costAt costs j).bind fun cost cost' hcost => ?_
      subst hcost
      show (_ : Reading) = _
      simp only [Reading.mirrored, mirrored, Keyed.put_mapValues]
    | positivePart x =>
      refine (agree_costAt costs j).bind fun cost cost' hcost => ?_
      subst hcost
      exact congrArg (fun positive => { r.mirrored with positive })
        (Keyed.put_mapValues (fun p => (p.1, -p.2)) r.positive x (_, cost))

theorem joined_mirrored (r : Reading) : r.mirrored.joined = r.joined.mirrored := by
  unfold Reading.joined
  have hnames : r.mirrored.splitNames = r.splitNames := by
    unfold Reading.splitNames Reading.mirrored
    rw [Keyed.names_mapValues]
  rw [hnames]
  have hstart : r.mirrored.solution = r.solution.mirrored := rfl
  rw [hstart]
  generalize r.solution = s
  induction r.splitNames generalizing s with
  | nil => rfl
  | cons name rest ih =>
    rw [List.foldl_cons, List.foldl_cons, ← ih]
    congr 1
    simp only [Reading.mirrored, Keyed.find?_mapValues]
    cases r.positive.find? name with
    | none => simp [mirrored, ← Keyed.put_mapValues]
    | some p => simp [mirrored, ← Keyed.put_mapValues]

theorem agree_assemble (levels : List (Int × Rat)) (costs : List Rat) (columns : List Column) (offset : Rat) :
    Agree (fun s s' => s' = s.mirrored) (assemble levels costs columns offset)
      (assemble levels (costs.map Neg.neg) columns (-offset)) := by
  unfold assemble
  have hlast : (costs.map Neg.neg).getLastD 0 + -offset = -(costs.getLastD 0 + offset) := by
    rw [List.getLastD_eq_getLast?, List.getLast?_map, List.getLastD_eq_getLast?]
    cases costs.getLast? with
    | none => simp
    | some q => simp [add_comm]
  rw [hlast]
  refine (Agree.foldlM (R := fun r r' : Reading => r' = r.mirrored) (fun p _ r r' hr => ?_) rfl).bind fun r r' hr => ?_
  · subst hr
    exact agree_column levels costs r p.1 p.2
  · subst hr
    exact joined_mirrored r

/-- The values of the basic columns do not depend on row 0. -/
theorem levels_mirrored (g : Grid) (basis : List (Option Int)) : levels g.mirrored basis = levels g basis := by
  unfold levels
  congr 2
  funext p
  obtain ⟨_ | j, row⟩ := p
  · rfl
  · dsimp only
    split
    · rfl
    · rename_i hrow
      rw [Grid.get_mirrored_of_pos (Nat.pos_of_ne_zero hrow)]

theorem agree_ofTableau (g : Grid) (columns : List Column) (basis : List (Option Int)) (offset : Rat) :
    Agree (fun s s' => s' = s.mirrored) (ofTableau g columns basis (.fraction offset.num offset.den))
      (ofTableau g.mirrored columns basis (.fraction (-offset).num (-offset).den)) := by
  unfold ofTableau
  rw [levels_mirrored]
  refine (agree_self (levels g basis)).bind fun l l' hl => ?_
  subst hl
  rw [Operand.value_fraction, Operand.value_fraction, Grid.line_mirrored_zero]
  exact agree_assemble l (g.line 0) columns offset

end Solution

namespace Simplex

variable {setting : Setting} {s t : State} {α β γ : Type}

/-! ## Mirrored states -/

namespace State

@[simp]
theorem constraintRows_mirrored (s : State) : s.mirrored.constraintRows = s.constraintRows := by
  unfold constraintRows mirrored
  rw [Grid.rowCount_mirrored]

theorem pos_of_mem_constraintRows {i : Nat} (hi : i ∈ s.constraintRows) : 0 < i := by
  obtain ⟨k, -, rfl⟩ := List.mem_map.mp hi
  exact Nat.succ_pos k

theorem lastEntry_mirrored {i : Nat} (hi : i ∈ s.constraintRows) :
    s.mirrored.tableau.lastEntry i = s.tableau.lastEntry i :=
  Grid.lastEntry_mirrored_of_pos (pos_of_mem_constraintRows hi)

/-- A column improves a goal as much as it improves the opposite one in the mirror image. -/
@[simp]
theorem signedCost_mirrored (s : State) (j : Nat) : s.mirrored.signedCost j = s.signedCost j := by
  unfold signedCost
  show s.tableau.mirrored.entry 0 j * (s.goal.opposite.sign : Int) = _
  rw [Grid.entry_mirrored_zero, Goal.sign_opposite]
  push_cast
  ring

@[simp]
theorem improving_mirrored (s : State) : s.mirrored.improving = s.improving := by
  unfold improving
  simp only [signedCost_mirrored]
  rfl

@[simp]
theorem ratios_mirrored (s : State) (j : Nat) : s.mirrored.ratios j = s.ratios j := by
  unfold ratios
  rw [constraintRows_mirrored]
  refine List.filterMap_congr fun i hi => ?_
  dsimp only
  rw [lastEntry_mirrored hi]
  show (if 0 < s.tableau.mirrored.entry i j then some (_ / s.tableau.mirrored.entry i j, i) else none) = _
  rw [Grid.entry_mirrored_of_pos (pos_of_mem_constraintRows hi)]

@[simp]
theorem hasZeroRhs_mirrored (s : State) : s.mirrored.hasZeroRhs = s.hasZeroRhs := by
  unfold hasZeroRhs
  rw [constraintRows_mirrored, Bool.eq_iff_iff, List.any_eq_true, List.any_eq_true]
  exact exists_congr fun i => and_congr_right fun hi => by rw [lastEntry_mirrored hi]

theorem findSome?_congr {f g : Nat → Option α} {rows : List Nat} (h : ∀ i ∈ rows, f i = g i) :
    rows.findSome? f = rows.findSome? g := by
  induction rows with
  | nil => rfl
  | cons i rest ih =>
    rw [List.findSome?_cons, List.findSome?_cons, h i List.mem_cons_self,
      ih fun k hk => h k (List.mem_cons_of_mem _ hk)]

@[simp]
theorem negativeRhs?_mirrored (s : State) : s.mirrored.negativeRhs? = s.negativeRhs? := by
  unfold negativeRhs?
  rw [constraintRows_mirrored]
  refine findSome?_congr fun i hi => ?_
  dsimp only
  rw [lastEntry_mirrored hi]

@[simp]
theorem corruption?_mirrored (s : State) : s.mirrored.corruption? = s.corruption? := by
  have hrows : s.mirrored.tableau.rowCount = s.tableau.rowCount := Grid.rowCount_mirrored _
  have hcolumns : s.mirrored.tableau.columnCount = s.tableau.columnCount := Grid.columnCount_mirrored _
  unfold corruption?
  rw [hrows, hcolumns]
  rfl

end State

/-! ## Computations over mirrored states -/

/-- The second state is the mirror image of the first. -/
def Mirror (s t : State) : Prop := t = s.mirrored

/-- The same pivots were made, and the same candidates were offered. -/
def SameTrace (s t : State) : Prop := t.pivots = s.pivots ∧ t.offered = s.offered

theorem Mirror.sameTrace (h : Mirror s t) : SameTrace s t := h ▸ ⟨rfl, rfl⟩

/-- From mirrored states both computations end with related results in mirrored states, or with faults of one kind
after the same pivots. -/
def Mirrors (x : Step α) (y : Step β) (R : α → β → Prop) : Prop :=
  InStep SameTrace Mirror x y R Mirror

theorem mirrors_lift {x : Except Fault α} {y : Except Fault β} {R : α → β → Prop} (h : Agree R x y) :
    Mirrors (liftM x) (liftM y) R :=
  inStep_lift (fun _ _ => Mirror.sameTrace) h

theorem mirrors_throw {e f : Fault} {R : α → β → Prop} (h : e.kind = f.kind) : Mirrors (throw e) (throw f) R :=
  inStep_throw (fun _ _ => Mirror.sameTrace) h

theorem mirrors_pure {a : α} {b : β} {R : α → β → Prop} (h : R a b) : Mirrors (pure a) (pure b) R := inStep_pure h

theorem mirrors_set (h : Mirror s t) : Mirrors (set s) (set t) Eq := inStep_set h

theorem mirrors_get_bind {f : State → Step α} {g : State → Step β} {R : α → β → Prop}
    (h : ∀ s, Mirrors (f s) (g s.mirrored) R) : Mirrors (get >>= f) (get >>= g) R :=
  InStep.get_bind fun s _ hst => by
    rw [hst]
    exact h s

theorem mirrors_modify {f : State → State} (h : ∀ s, f s.mirrored = (f s).mirrored) :
    Mirrors (modify f) (modify f) Eq :=
  inStep_modify fun s t hst => by
    rw [hst]
    exact h s

theorem mirrors_onTableau {f : Grid → Except Fault Grid}
    (h : ∀ g, Agree (fun a b => b = a.mirrored) (f g) (f g.mirrored)) : Mirrors (onTableau f) (onTableau f) Eq := by
  unfold onTableau
  refine mirrors_get_bind fun s => (mirrors_lift (h s.tableau)).bind fun g g' hg => ?_
  subst hg
  exact mirrors_set rfl

/-- A change of the state that keeps the trace, from one relation of the states to another. -/
theorem inStep_onState {S S' : State → State → Prop} {f g : State → Except Fault State}
    (htrace : ∀ s t, S s t → SameTrace s t) (h : ∀ s t, S s t → Agree S' (f s) (g t)) :
    InStep SameTrace S (onState f) (onState g) Eq S' := by
  unfold onState
  exact InStep.get_bind fun s t hst => (inStep_lift htrace (h s t hst)).bind fun _ _ => inStep_set

theorem mirrors_onState {f : State → Except Fault State}
    (h : ∀ s, Agree (fun a b => b = a.mirrored) (f s) (f s.mirrored)) : Mirrors (onState f) (onState f) Eq :=
  inStep_onState (fun _ _ => Mirror.sameTrace) fun s t hst => by
    rw [hst]
    exact h s

theorem agree_setBasis (s : State) (row : Int) (entry : Option Int) :
    Agree (fun a b => b = a.mirrored) (s.setBasis row entry) (s.mirrored.setBasis row entry) := by
  unfold State.setBasis
  rw [show s.mirrored.basis = s.basis from rfl]
  cases resolveIndex row s.basis.length <;> exact rfl

/-! ## One step -/

section Iterating

theorem mirrors_latchDegeneracy : Mirrors latchDegeneracy latchDegeneracy Eq := by
  refine mirrors_modify fun s => ?_
  rw [State.hasZeroRhs_mirrored]
  split <;> rfl

theorem mirrors_choose (setting : Setting) (candidates : List Nat) :
    Mirrors (choose setting candidates) (choose setting.mirrored candidates) Eq := by
  unfold choose
  exact mirrors_get_bind fun s => (mirrors_set rfl).bind fun _ _ _ => mirrors_pure rfl

theorem mirrors_entering (setting : Setting) : Mirrors (entering setting) (entering setting.mirrored) Eq := by
  unfold entering
  refine mirrors_get_bind fun s => ?_
  rw [State.improving_mirrored]
  cases s.improving with
  | nil => exact mirrors_pure rfl
  | cons j rest =>
    have hcosts : s.mirrored.signedCost = s.signedCost := funext s.signedCost_mirrored
    dsimp only
    rw [hcosts]
    show Mirrors (if s.degenerate then _ else _) (if s.degenerate then _ else _) Eq
    split
    · exact mirrors_pure rfl
    · refine (mirrors_choose setting _).bind fun i i' hi => ?_
      exact mirrors_pure (congrArg some hi)

theorem mirrors_leaving (setting : Setting) (j : Nat) :
    Mirrors (leaving setting j) (leaving setting.mirrored j) Eq := by
  unfold leaving
  refine mirrors_get_bind fun s => ?_
  rw [State.ratios_mirrored]
  rcases s.ratios j with _ | ⟨⟨ratio, i⟩, rest⟩
  · exact mirrors_pure rfl
  · show Mirrors (if s.degenerate then _ else _) (if s.degenerate then _ else _) Eq
    split
    · exact mirrors_pure rfl
    · refine (mirrors_choose setting _).bind fun i i' hi => ?_
      exact mirrors_pure (congrArg some hi)

theorem ensures_leaving (hfair : setting.tieBreak.Fair) (j : Nat) :
    Ensures (leaving setting j) fun _ found _ => ∀ i, found = some i → 0 < i := by
  intro s found u hrun i hi
  rcases leaving_cases hfair s j with ⟨-, hnone⟩ | ⟨i', o, hsome, hbinds, -⟩
  · rw [hnone] at hrun
    cases Except.ok.inj (Prod.mk.inj hrun).1 ▸ hi
  · rw [hsome] at hrun
    obtain rfl := Option.some.inj (Except.ok.inj (Prod.mk.inj hrun).1 ▸ hi)
    exact State.pos_of_mem_constraintRows hbinds.1

theorem mirrors_pivot {row : Nat} (hrow : 0 < row) (column : Int) :
    Mirrors (pivot row column) (pivot row column) Eq := by
  have hdivide : Mirrors (onTableau fun g => g.divideToOne row column)
      (onTableau fun g => g.divideToOne row column) Eq :=
    mirrors_onTableau fun g => Grid.agree_divideToOne hrow column
  have hcancel : ∀ i : Nat, Mirrors (onTableau fun g => g.zeroOut i row column)
      (onTableau fun g => g.zeroOut i row column) Eq :=
    fun i => mirrors_onTableau fun g => Grid.agree_zeroOut hrow i column
  have hbasis : Mirrors (onState fun s => s.setBasis row (some column))
      (onState fun s => s.setBasis row (some column)) Eq :=
    mirrors_onState fun s => agree_setBasis s row (some column)
  have hnote : Mirrors (modify fun s : State => { s with pivots := s.pivots ++ [((row : Int), column)] })
      (modify fun s : State => { s with pivots := s.pivots ++ [((row : Int), column)] }) Eq :=
    mirrors_modify fun s => rfl
  unfold pivot
  refine hdivide.bind fun _ _ _ => ?_
  refine mirrors_get_bind fun s => ?_
  rw [show s.mirrored.tableau.rowCount = s.tableau.rowCount from Grid.rowCount_mirrored _]
  refine (InStep.forM fun i _ => ?_).bind fun _ _ _ => ?_
  · split
    · exact mirrors_pure rfl
    · exact hcancel i
  refine hbasis.bind fun _ _ _ => ?_
  refine hnote.bind fun _ _ _ => ?_
  refine mirrors_get_bind fun s => ?_
  refine (mirrors_lift (agree_self (s.column column))).bind fun _ _ _ => ?_
  rw [State.negativeRhs?_mirrored]
  cases s.negativeRhs? with
  | none => exact mirrors_pure rfl
  | some what => exact mirrors_throw rfl

theorem mirrors_iterate (hfair : setting.tieBreak.Fair) (mayPivot : Bool) :
    Mirrors (iterate setting mayPivot) (iterate setting.mirrored mayPivot) Eq := by
  unfold iterate
  refine mirrors_latchDegeneracy.bind fun _ _ _ => (mirrors_entering setting).bind fun found found' hfound => ?_
  subst hfound
  cases found with
  | none => exact mirrors_pure rfl
  | some j =>
    dsimp only
    split
    · exact mirrors_get_bind fun s => (mirrors_throw rfl)
    · -- a pivot in row 0 would lose the sign that the tableaux differ by
      refine ((mirrors_leaving setting j).ensures (ensures_leaving hfair j)).bind fun row row' hrow => ?_
      obtain ⟨rfl, hpos⟩ := hrow
      cases row with
      | none => exact mirrors_pure rfl
      | some i => exact (mirrors_pivot (hpos i rfl) j).bind fun _ _ _ => mirrors_pure rfl

theorem mirrors_run (hfair : setting.tieBreak.Fair) (limit : Nat) :
    Mirrors (run setting limit) (run setting.mirrored limit) Eq := by
  induction limit with
  | zero => exact mirrors_iterate hfair false
  | succ limit ih =>
    refine (mirrors_iterate hfair true).bind fun found found' hfound => ?_
    subst hfound
    cases found with
    | intermediate => exact ih
    | optimal => exact mirrors_pure rfl
    | unbounded => exact mirrors_pure rfl

end Iterating

/-! ## The phases -/

section Phases

/-- What a run does depends on its limit and its tie-break only. -/
theorem run_mirrored (setting : Setting) (limit : Nat) : run setting.mirrored limit = run setting limit := by
  induction limit with
  | zero => rfl
  | succ limit ih =>
    unfold run
    rw [ih]
    rfl

theorem sameTrace_refl (s : State) : SameTrace s s := ⟨rfl, rfl⟩

/-- The states of phase one are the same: it has a goal and an objective of its own. -/
theorem inStep_startPhaseOne : InStep SameTrace Mirror startPhaseOne startPhaseOne Eq Eq := by
  -- once the goals are the same, the tableaux still differ until row 0 is set
  have hgoal : InStep SameTrace Mirror
      (modify fun s : State => { s with phase := .one, goal := .minimize } : Step Unit)
      (modify fun s : State => { s with phase := .one, goal := .minimize } : Step Unit) Eq
      fun s t => t = { s with tableau := s.tableau.mirrored } :=
    inStep_modify fun s t hst => by rw [hst]; rfl
  have hrow : InStep SameTrace (fun s t : State => t = { s with tableau := s.tableau.mirrored })
      (onState fun s => do return { s with tableau := ← s.tableau.setRow 0 (artificialRow s.columns) })
      (onState fun s => do return { s with tableau := ← s.tableau.setRow 0 (artificialRow s.columns) }) Eq Eq := by
    refine inStep_onState (fun s t hst => hst ▸ ⟨rfl, rfl⟩) ?_
    rintro s _ rfl
    rw [Grid.setRow_mirrored]
    exact agree_self _
  unfold startPhaseOne
  exact hgoal.bind fun _ _ _ => hrow.bind fun _ _ _ => inStep_self sameTrace_refl _

theorem inStep_phaseOne (setting : Setting) :
    InStep SameTrace Mirror (phaseOne setting) (phaseOne setting.mirrored) Eq Eq := by
  unfold phaseOne
  refine inStep_startPhaseOne.bind fun _ _ _ => ?_
  rw [run_mirrored]
  exact inStep_self sameTrace_refl _

theorem objectiveRow_negated (columns : List Column) (objective : Terms) :
    State.objectiveRow columns objective.negated = (State.objectiveRow columns objective).map Neg.neg := by
  unfold State.objectiveRow
  rw [List.map_append, List.map_map, List.map_singleton, neg_zero]
  congr 2
  funext c
  dsimp only [Function.comp_apply]
  rw [Terms.coefficient_negated]
  split
  · exact neg_zero.symm
  · rfl

theorem mirrors_forConstraintRows {f : Nat → Step Unit} (h : ∀ row, 0 < row → Mirrors (f row) (f row) Eq) :
    Mirrors (forConstraintRows f) (forConstraintRows f) Eq := by
  unfold forConstraintRows
  refine mirrors_get_bind fun s => ?_
  rw [State.constraintRows_mirrored]
  exact InStep.forM fun row hrow => h row (State.pos_of_mem_constraintRows hrow)

theorem mirrors_cancelBasic {row : Nat} (hrow : 0 < row) : Mirrors (cancelBasic row) (cancelBasic row) Eq := by
  have hcancel : ∀ j : Int, Mirrors (onTableau fun g => g.zeroOut 0 row j) (onTableau fun g => g.zeroOut 0 row j) Eq :=
    fun j => mirrors_onTableau fun g => Grid.agree_zeroOut hrow 0 j
  unfold cancelBasic
  refine mirrors_get_bind fun s => (mirrors_lift (agree_self (s.basisEntry row))).bind fun entry entry' hentry => ?_
  subst hentry
  cases entry with
  | none => exact mirrors_pure rfl
  | some j => exact hcancel j

/-- Phase two starts from the same state on both sides, with opposite objectives. -/
theorem inStep_startPhaseTwo (setting : Setting) :
    InStep SameTrace Eq (startPhaseTwo setting) (startPhaseTwo setting.mirrored) Eq Mirror := by
  have hgoal : InStep SameTrace Eq
      (modify fun s : State => { s with phase := .two, goal := setting.goal } : Step Unit)
      (modify fun s : State => { s with phase := .two, goal := setting.goal.opposite } : Step Unit) Eq
      fun s t => t = { s with goal := s.goal.opposite } :=
    inStep_modify fun s t hst => by rw [hst]
  have hrow : InStep SameTrace (fun s t : State => t = { s with goal := s.goal.opposite })
      (onState fun s => do
        return { s with tableau := ← s.tableau.setRow 0 (State.objectiveRow s.columns setting.objective) })
      (onState fun s => do
        return { s with tableau := ← s.tableau.setRow 0 (State.objectiveRow s.columns setting.objective.negated) })
      Eq Mirror := by
    refine inStep_onState (fun s t hst => hst ▸ ⟨rfl, rfl⟩) ?_
    rintro s _ rfl
    rw [objectiveRow_negated]
    refine (Grid.agree_setRow_neg s.tableau (State.objectiveRow s.columns setting.objective)).bind fun g g' hg => ?_
    exact hg ▸ rfl
  unfold startPhaseTwo
  exact hgoal.bind fun _ _ _ => hrow.bind fun _ _ _ => mirrors_forConstraintRows fun _ => mirrors_cancelBasic

theorem inStep_transition (setting : Setting) :
    InStep SameTrace Eq (transition setting) (transition setting.mirrored) Eq Mirror := by
  unfold transition
  refine (inStep_self sameTrace_refl _).bind fun _ _ _ => ?_
  exact (inStep_self sameTrace_refl _).bind fun _ _ _ => inStep_startPhaseTwo setting

end Phases

/-! ## The whole run -/

section Solving

theorem agree_solution (s : State) (offset : Rat) :
    Agree (fun found found' => found' = found.mirrored) (s.solution offset) (s.mirrored.solution (-offset)) :=
  Solution.agree_ofTableau s.tableau s.columns s.basis offset

theorem agree_checkBasis (s : State) : Agree Eq s.checkBasis s.mirrored.checkBasis := by
  unfold State.checkBasis
  rw [State.corruption?_mirrored]
  exact agree_self _

/-- The mirror image of a first state is the first state of the mirror image. -/
theorem agree_ofEquations (setting : Setting) (e : Equations) :
    Agree (fun s s' => s' = s.mirrored) (State.ofEquations setting e) (State.ofEquations setting.mirrored e) := by
  have hnames : State.checkNames setting.mirrored.objective e.columns =
      State.checkNames setting.objective e.columns := by
    unfold State.checkNames
    rw [show setting.mirrored.objective.names = setting.objective.names from Terms.names_negated _]
  unfold State.ofEquations
  rw [hnames]
  refine (agree_self _).bind fun _ _ _ => ?_
  rw [show setting.mirrored.objective = setting.objective.negated from rfl, objectiveRow_negated]
  exact (agree_checkBasis _).bind fun _ _ _ => rfl

/-- The last phase and what is read off its tableau. -/
def lastPhase (setting : Setting) : Step Solution := do
  match ← run setting setting.limit with
  | .unbounded => throw .unbounded
  | _ =>
    let s ← get
    s.checkBasis
    s.solution setting.offset

theorem solve_eq_lastPhase (setting : Setting) :
    solve setting = (do
      if (← get).hasArtificials then
        phaseOne setting
        transition setting
        lastPhase setting
      else
        modify fun s => { s with phase := .two }
        lastPhase setting) := rfl

theorem mirrors_lastPhase (hfair : setting.tieBreak.Fair) :
    Mirrors (lastPhase setting) (lastPhase setting.mirrored) fun found found' => found' = found.mirrored := by
  have hread : Mirrors (do let s ← get; s.checkBasis; s.solution setting.offset)
      (do let s ← get; s.checkBasis; s.solution setting.mirrored.offset)
      fun found found' => found' = found.mirrored :=
    mirrors_get_bind fun s => (mirrors_lift (agree_checkBasis s)).bind fun _ _ _ =>
      mirrors_lift (agree_solution s setting.offset)
  unfold lastPhase
  refine (mirrors_run hfair setting.limit).bind fun progress progress' hprogress => ?_
  subst hprogress
  cases progress with
  | unbounded => exact mirrors_throw rfl
  | optimal => exact hread
  | intermediate => exact hread

/-- A run and its mirror image make the same pivots, and end with mirrored solutions or for the same kind of
reason. -/
theorem mirrors_solve (hfair : setting.tieBreak.Fair) :
    Mirrors (solve setting) (solve setting.mirrored) fun found found' => found' = found.mirrored := by
  have hphase : Mirrors (modify fun s : State => { s with phase := .two })
      (modify fun s : State => { s with phase := .two }) Eq :=
    mirrors_modify fun s => rfl
  rw [solve_eq_lastPhase, solve_eq_lastPhase]
  refine mirrors_get_bind fun s => ?_
  show Mirrors (if s.hasArtificials then _ else _) (if s.hasArtificials then _ else _) _
  split
  · refine (inStep_phaseOne setting).bind fun _ _ _ => ?_
    exact (inStep_transition setting).bind fun _ _ _ => mirrors_lastPhase hfair
  · exact hphase.bind fun _ _ _ => mirrors_lastPhase hfair

end Solving

end Simplex

end ExactLP
