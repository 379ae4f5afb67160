import ExactLP.Proofs.Number.Trial
import Mathlib.Data.Int.GCD
import Mathlib.Tactic.NormNum.Prime

/-!
# Proofs.Number.History — a factor table over whole histories

* `Answers`: in every sound table a question has one answer, and it leaves a sound table that has only grown.
* `answers_isPrime`, `answers_factorizeNat`, `answers_commonFactor`: the three questions.
* `Query`, `FactorTable.after`: histories of questions; `Sound.after`: they keep a table sound.
* `FactorTable.history_exact`: what a table holds and answers after any history.
-/

namespace ExactLP

variable {α β : Type} {x : Factoring α} {f : α → Factoring β} {a : α} {b : β} {n m last : Nat} {t : FactorTable}

/-! ## Questions with one answer -/

section Answering

/-- In every sound table the question has this answer, and the table that it leaves is sound and has grown. -/
def Answers (x : Factoring α) (a : α) : Prop :=
  ∀ t last, t.Sound last → ∃ u, x.run t = (.ok a, u) ∧ u.Sound last ∧ t.Grows u

theorem answers_pure (a : α) : Answers (pure a) a := fun t _ h => ⟨t, rfl, h, FactorTable.Grows.refl t⟩

theorem Answers.bind (hx : Answers x a) (hf : Answers (f a) b) : Answers (x >>= f) b := by
  intro t last h
  obtain ⟨u, hrun, hu, htu⟩ := hx t last h
  obtain ⟨v, hrest, hv, huv⟩ := hf u last hu
  refine ⟨v, ?_, hv, htu.trans huv⟩
  show (match x.run t with | (a, t) => (ExceptT.bindCont f a) t) = _
  rw [hrun]
  exact hrest

theorem run_get_bind (f : FactorTable → Factoring α) (t : FactorTable) : (get >>= f).run t = (f t).run t := rfl

theorem answers_isPrime (n : Nat) : Answers (isPrime n) (decide n.Prime) := by
  intro t last h
  have hsame : ∀ b : Bool, (b = true ↔ n.Prime) →
      ∃ u, (pure b : Factoring Bool).run t = (.ok (decide n.Prime), u) ∧ u.Sound last ∧ t.Grows u :=
    fun b hb => ⟨t, by rw [Bool.eq_iff_iff.mpr (hb.trans decide_eq_true_iff.symm)]; rfl, h, FactorTable.Grows.refl t⟩
  rw [isPrime, run_get_bind, h.last_eq]
  split
  · rename_i hlt
    exact hsame false (iff_of_false Bool.false_ne_true fun hp => absurd hp.two_le (by omega))
  rename_i hge
  split
  · rename_i hmem
    exact hsame true (iff_of_true rfl ((h.mem_iff n).mp (List.contains_iff_mem.mp hmem)).1)
  rename_i hnot
  rw [List.contains_iff_mem, h.mem_iff, not_and] at hnot
  dsimp only
  split
  · rename_i hlt
    exact hsame false (iff_of_false Bool.false_ne_true fun hp => hnot hp hlt.le)
  cases hknown : t.known? n with
  | some factors => exact hsame _ (beq_iff_eq.trans (h.of_known? hknown).2.length_eq_one_iff)
  | none =>
    have hdiv := hasDivisor_iff (by omega) (TrialDivisors.of_sound h n)
    dsimp only
    split
    · rename_i hdivisor
      exact hsame false (iff_of_false Bool.false_ne_true (hdiv.mp hdivisor))
    · rename_i hnone
      have hprime : n.Prime := not_not.mp (mt hdiv.mpr hnone)
      refine ⟨t.remember n [n], ?_, h.remember hprime.two_le (isFactorization_singleton hprime),
        FactorTable.grows_remember _ _ _⟩
      rw [decide_eq_true hprime]
      rfl

/-- The prime factors of a natural number; 0 and 1 stand for themselves. -/
def listedFactors (n : Nat) : List Nat := if n < 2 then [n] else n.primeFactorsList

theorem isFactorization_listedFactors (h : 2 ≤ n) : IsFactorization n (listedFactors n) := by
  rw [listedFactors, if_neg (by omega)]
  exact isFactorization_primeFactorsList (by omega)

theorem answers_factorizeNat (n : Nat) : Answers (factorizeNat n) (listedFactors n) := by
  unfold factorizeNat listedFactors
  split
  · exact answers_pure [n]
  rename_i hge
  intro t last h
  rw [run_get_bind]
  cases hknown : t.known? n with
  | some factors =>
    rw [← (h.of_known? hknown).2.eq_primeFactorsList]
    exact ⟨t, rfl, h, FactorTable.Grows.refl t⟩
  | none =>
    -- trial division starts from the table that the test for primality leaves, which may have grown
    refine Answers.bind (answers_isPrime n) ?_ t last h
    by_cases hprime : n.Prime
    · rw [if_pos (decide_eq_true hprime), Nat.primeFactorsList_prime hprime]
      exact answers_pure [n]
    · rw [if_neg (by simpa using hprime)]
      intro u last' hu
      obtain ⟨hrun, hend⟩ := (Trial.underWay_start hu n).run (by omega) (TrialDivisors.of_sound hu n)
      have hfact := hrun.isFactorization_sorted (by omega) hend
      refine ⟨_, ?_, hrun.table.remember (by omega) hfact,
        hrun.grown.trans (FactorTable.grows_remember _ _ _)⟩
      rw [← hfact.eq_primeFactorsList]
      rfl

theorem answers_factorize (n : Int) :
    Answers (factorize n)
      (if n < 0 then -1 :: (listedFactors n.natAbs).map Int.ofNat else (listedFactors n.natAbs).map Int.ofNat) :=
  (answers_factorizeNat n.natAbs).bind (answers_pure _)

/-- The factors of one number that divide another out make up their greatest common divisor. -/
theorem sharedProduct_eq (factors : List Nat) (hprime : ∀ p ∈ factors, p.Prime) (n : Nat) :
    sharedProduct factors n = factors.prod.gcd n := by
  induction factors generalizing n with
  | nil => rw [sharedProduct, List.prod_nil, Nat.gcd_one_left]
  | cons f rest ih =>
    obtain ⟨hf, hrest⟩ := List.forall_mem_cons.mp hprime
    rw [sharedProduct, List.prod_cons]
    split
    · rename_i hdvd
      rw [ih hrest, ← Nat.gcd_mul_left, Nat.mul_div_cancel' (Nat.dvd_of_mod_eq_zero hdvd)]
    · rename_i hndvd
      have hcoprime : f.Coprime n := (Nat.Prime.coprime_iff_not_dvd hf).mpr fun h => hndvd (Nat.mod_eq_zero_of_dvd h)
      rw [ih hrest, hcoprime.gcd_mul_left_cancel]

theorem answers_sharedProduct (hm : 2 ≤ m) (n : Nat) :
    Answers (do return sharedProduct (← factorizeNat m) n) (m.gcd n) := by
  have hfact := isFactorization_listedFactors hm
  have hgcd := sharedProduct_eq _ hfact.prime n
  rw [hfact.prod] at hgcd
  exact hgcd ▸ (answers_factorizeNat m).bind (answers_pure _)

theorem answers_commonFactor {a b : Int} (ha : a ≠ 0) (hb : b ≠ 0) : Answers (commonFactor a b) (a.gcd b) := by
  have hapos := Int.natAbs_pos.mpr ha
  have hbpos := Int.natAbs_pos.mpr hb
  unfold commonFactor Int.gcd
  dsimp only
  split
  · rename_i hone
    have hgcd : a.natAbs.gcd b.natAbs = 1 := by
      rcases (by omega : a.natAbs = 1 ∨ b.natAbs = 1) with h | h
      · rw [h, Nat.gcd_one_left]
      · rw [h, Nat.gcd_one_right]
    rw [hgcd]
    exact answers_pure 1
  split
  · rename_i heq
    rw [← heq, Nat.gcd_self]
    exact answers_pure _
  split
  · exact answers_sharedProduct (by omega) _
  · rw [Nat.gcd_comm]
    exact answers_sharedProduct (by omega) _

end Answering

/-! ## Histories -/

section Histories

/-- A question to a factor table. -/
inductive Query where
  | prime (n : Int)
  | factors (n : Int)
  | common (a b : Int)

/-- What a question is answered with. -/
inductive Answer where
  | truth (b : Bool)
  | factors (ns : List Int)
  | number (n : Nat)

/-- Puts a question.  No negative number counts as a prime. -/
def Query.put : Query → Factoring Answer
  | prime n => return .truth (← isPrime n.toNat)
  | factors n => return .factors (← factorize n)
  | common a b => return .number (← commonFactor a b)

/-- The table after some questions. -/
def FactorTable.after (t : FactorTable) (queries : List Query) : FactorTable :=
  queries.foldl (fun t q => (q.put.run t).2) t

theorem Query.exists_answers (q : Query) : ∃ a, Answers q.put a := by
  cases q with
  | prime n => exact ⟨_, (answers_isPrime n.toNat).bind (answers_pure _)⟩
  | factors n => exact ⟨_, (answers_factorize n).bind (answers_pure _)⟩
  | common a b =>
    by_cases h : a = 0 ∨ b = 0
    · refine ⟨.number 1, Answers.bind (a := 1) ?_ (answers_pure _)⟩
      unfold commonFactor
      rw [if_pos (by omega)]
      exact answers_pure 1
    · exact ⟨_, (answers_commonFactor (fun ha => h (Or.inl ha)) fun hb => h (Or.inr hb)).bind (answers_pure _)⟩

theorem FactorTable.Sound.next (h : t.Sound last) (q : Query) :
    (q.put.run t).2.Sound last ∧ t.Grows (q.put.run t).2 := by
  obtain ⟨a, ha⟩ := q.exists_answers
  obtain ⟨u, hrun, hu, hgrows⟩ := ha t last h
  rw [hrun]
  exact ⟨hu, hgrows⟩

/-- A sound table stays sound over a history, and only grows. -/
theorem FactorTable.Sound.after (h : t.Sound last) (queries : List Query) :
    (t.after queries).Sound last ∧ t.Grows (t.after queries) := by
  induction queries generalizing t with
  | nil => exact ⟨h, FactorTable.Grows.refl t⟩
  | cons q rest ih =>
    obtain ⟨hnext, hgrows⟩ := h.next q
    obtain ⟨hafter, hrest⟩ := ih hnext
    exact ⟨hafter, hgrows.trans hrest⟩

theorem FactorTable.ListsPrimes.sound (h : t.ListsPrimes last) (hmemo : t.memo = []) : t.Sound last :=
  ⟨h, fun _ _ hmem => absurd (hmemo ▸ hmem) List.not_mem_nil⟩

end Histories

/-! ## The primes below 1000 -/

section SmallPrimes

/-- No number from 2 up to a bound divides `n`, but perhaps `n` itself. -/
def undivided (bound n : Nat) : Bool := (List.range bound).all fun d => d < 2 || n ≤ d || n % d != 0

theorem prime_iff_undivided {bound : Nat} (hn : n < bound * bound) :
    n.Prime ↔ 2 ≤ n ∧ undivided bound n = true := by
  have hall : undivided bound n = true ↔ ∀ d < bound, 2 ≤ d → d < n → ¬d ∣ n := by
    simp only [undivided, List.all_eq_true, List.mem_range, Bool.or_eq_true, decide_eq_true_eq, bne_iff_ne,
      Nat.dvd_iff_mod_eq_zero]
    exact forall₂_congr fun d _ => by omega
  rw [hall]
  constructor
  · exact fun hp => ⟨hp.two_le, fun d _ hd hlt hdvd => (hp.eq_one_or_self_of_dvd d hdvd).elim (by omega) (by omega)⟩
  · rintro ⟨htwo, hno⟩
    -- the least factor is below the bound, is the number itself, or has a square that is too large
    by_cases hsmall : n.minFac < bound ∧ n.minFac < n
    · exact absurd n.minFac_dvd (hno _ hsmall.1 (Nat.minFac_prime (by omega)).two_le hsmall.2)
    · by_cases hself : n.minFac = n
      · exact hself ▸ Nat.minFac_prime (by omega)
      · have hle := Nat.minFac_le (n := n) (by omega)
        exact prime_of_lt_mul_self htwo hn fun p hp hdvd => by
          have := Nat.minFac_le_of_dvd hp.two_le hdvd
          omega

namespace FactorTable

theorem smallPrimes_eq : smallPrimes = (List.range 998).filter fun n => 2 ≤ n && undivided 32 n := by
  decide +kernel

theorem fresh_listsPrimes : fresh.ListsPrimes 997 where
  ascending := by
    show smallPrimes.Pairwise (· ≤ ·)
    rw [smallPrimes_eq]
    exact List.pairwise_le_range.filter _
  last_eq := rfl
  odd := rfl
  mem_iff p := by
    show p ∈ smallPrimes ↔ _
    rw [smallPrimes_eq, List.mem_filter, List.mem_range, Bool.and_eq_true, decide_eq_true_eq]
    constructor
    · exact fun ⟨hlt, hp⟩ => ⟨(prime_iff_undivided (by omega)).mpr hp, by omega⟩
    · exact fun ⟨hp, hle⟩ => ⟨by omega, (prime_iff_undivided (by omega)).mp hp⟩

end FactorTable

end SmallPrimes

/-! ## Every history -/

section Exact

theorem FactorTable.Sound.answer_eq (h : t.Sound last) (hx : Answers x a) : (x.run t).1 = .ok a := by
  obtain ⟨u, hrun, -⟩ := hx t last h
  rw [hrun]

theorem toNat_prime_iff (n : Int) : n.toNat.Prime ↔ ∃ p : Nat, p.Prime ∧ n = p := by
  constructor
  · intro h
    have := h.pos
    exact ⟨n.toNat, h, by omega⟩
  · rintro ⟨p, hp, rfl⟩
    rwa [Int.toNat_natCast]

/-- After any history that a table of primes has gone through, what it remembers is right and stays, and every
question has the right answer.  The primes below 1000 are such a table. -/
theorem FactorTable.history_exact :
    fresh.ListsPrimes 997 ∧
    ∀ (t : FactorTable) (last : Nat), t.ListsPrimes last → t.memo = [] → ∀ past : List Query,
      (∀ n factors, (n, factors) ∈ (t.after past).memo → 2 ≤ n ∧ IsFactorization n factors) ∧
      (∀ more n factors, (t.after past).known? n = some factors →
        ((t.after past).after more).known? n = some factors) ∧
      (∀ q : Query, ∃ answer, (q.put.run (t.after past)).1 = .ok answer) ∧
      (∀ n : Int, ∃ b, ((isPrime n.toNat).run (t.after past)).1 = .ok b ∧
        (b = true ↔ ∃ p : Nat, p.Prime ∧ n = p)) ∧
      (∀ n : Nat, 2 ≤ n → ∃ factors,
        ((factorize n).run (t.after past)).1 = .ok (factors.map Int.ofNat) ∧ IsFactorization n factors) ∧
      (∀ n : Int, n < 0 → ∃ factors,
        ((factorize (-n)).run (t.after past)).1 = .ok factors ∧
          ((factorize n).run (t.after past)).1 = .ok (-1 :: factors)) ∧
      ∀ a b : Int, a ≠ 0 → b ≠ 0 →
        ((commonFactor a b).run (t.after past)).1 = .ok (a.natAbs.gcd b.natAbs) := by
  refine ⟨fresh_listsPrimes, fun t last hlists hmemo past => ?_⟩
  obtain ⟨hsound, -⟩ := (hlists.sound hmemo).after past
  refine ⟨hsound.memo, fun more n factors hknown => (hsound.after more).2.known? hknown, fun q => ?_, fun n => ?_,
    fun n hn => ?_, fun n hn => ?_, fun a b ha hb => hsound.answer_eq (answers_commonFactor ha hb)⟩
  · obtain ⟨answer, hanswer⟩ := q.exists_answers
    exact ⟨answer, hsound.answer_eq hanswer⟩
  · exact ⟨_, hsound.answer_eq (answers_isPrime n.toNat), decide_eq_true_iff.trans (toNat_prime_iff n)⟩
  · refine ⟨listedFactors n, ?_, isFactorization_listedFactors hn⟩
    have hanswer := hsound.answer_eq (answers_factorize n)
    rwa [if_neg (by omega)] at hanswer
  · refine ⟨(listedFactors n.natAbs).map Int.ofNat, ?_, ?_⟩
    · have hanswer := hsound.answer_eq (answers_factorize (-n))
      rwa [if_neg (by omega), Int.natAbs_neg] at hanswer
    · have hanswer := hsound.answer_eq (answers_factorize n)
      rwa [if_pos hn] at hanswer

/-- The table of 2 and 3 tries 5, 7, 9, 11, … beyond it. -/
theorem FactorTable.history_exact_sample :
    (⟨[2, 3], []⟩ : FactorTable).ListsPrimes 3 ∧
    ((factorize 770).run ((⟨[2, 3], []⟩ : FactorTable).after [.factors 385, .prime 121, .common (-18) 12])).1 =
      .ok [2, 5, 7, 11] := by
  have hlists : (⟨[2, 3], []⟩ : FactorTable).ListsPrimes 3 := by
    refine ⟨by decide, rfl, rfl, fun p => ?_⟩
    constructor
    · intro hp
      rcases List.mem_pair.mp hp with rfl | rfl
      · exact ⟨Nat.prime_two, by decide⟩
      · exact ⟨Nat.prime_three, le_rfl⟩
    · rintro ⟨hp, hle⟩
      have := hp.two_le
      exact List.mem_pair.mpr (by omega)
  refine ⟨hlists, ?_⟩
  obtain ⟨factors, hrun, hfact⟩ :=
    (FactorTable.history_exact.2 _ 3 hlists rfl [.factors 385, .prime 121, .common (-18) 12]).2.2.2.2.1 770 (by decide)
  have hlist : IsFactorization 770 [2, 5, 7, 11] := ⟨by decide, by norm_num, by norm_num⟩
  rw [hfact.eq_primeFactorsList, ← hlist.eq_primeFactorsList] at hrun
  exact hrun

end Exact

end ExactLP
