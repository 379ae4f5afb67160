import ExactLP.Number.Factor
import Mathlib.Data.Nat.Factors

/-!
# Proofs.Number.Trial — trial division over a table of primes

Trial division tries the primes of a table and then every second number after its last entry, composites
included.  As no prime is skipped, a composite never divides what remains.

* `TrialDivisors`: the divisors to come ascend and miss no prime factor; `hasDivisor_iff` reads primality off
  them.
* `UnderWay`: what a factorization under way has found, with a table that stays sound.  A division and a
  cofactor that the table knows keep it, hence `divideOut` and `run` do.
* `UnderWay.isFactorization_sorted`: what trial division ends in are the prime factors in ascending order.
-/

namespace ExactLP

variable {n m d next last : Nat} {ds factors known : List Nat} {t u : FactorTable}

/-! ## Prime factors in ascending order -/

section Factorizations

/-- The prime factors of a number with multiplicity, in ascending order. -/
structure IsFactorization (n : Nat) (factors : List Nat) : Prop where
  ascending : factors.Pairwise (· ≤ ·)
  prime : ∀ p ∈ factors, p.Prime
  prod : factors.prod = n

theorem isFactorization_primeFactorsList (h : n ≠ 0) : IsFactorization n n.primeFactorsList :=
  ⟨n.primeFactorsList_sorted.pairwise, fun _ => Nat.prime_of_mem_primeFactorsList, Nat.prod_primeFactorsList h⟩

theorem IsFactorization.eq_primeFactorsList (h : IsFactorization n factors) : factors = n.primeFactorsList :=
  (Nat.primeFactorsList_unique h.prod h.prime).eq_of_pairwise' h.ascending n.primeFactorsList_sorted.pairwise

theorem isFactorization_singleton (h : n.Prime) : IsFactorization n [n] :=
  ⟨List.pairwise_singleton _ n, fun _ hp => List.mem_singleton.mp hp ▸ h, List.prod_singleton⟩

/-- A number is prime when it is its only prime factor. -/
theorem IsFactorization.length_eq_one_iff (h : IsFactorization n factors) : factors.length = 1 ↔ n.Prime := by
  constructor
  · intro hlen
    obtain ⟨p, rfl⟩ := List.length_eq_one_iff.mp hlen
    rw [← h.prod, List.prod_singleton]
    exact h.prime p List.mem_cons_self
  · intro hp
    rw [h.eq_primeFactorsList, Nat.primeFactorsList_prime hp]
    rfl

end Factorizations

/-! ## Tables -/

section Tables

namespace FactorTable

/-- The table lists exactly the primes up to its last entry, in order, and that entry is odd. -/
structure ListsPrimes (t : FactorTable) (last : Nat) : Prop where
  ascending : t.primes.Pairwise (· ≤ ·)
  last_eq : t.primes.getLast? = some last
  odd : last % 2 = 1
  mem_iff : ∀ p, p ∈ t.primes ↔ p.Prime ∧ p ≤ last

/-- The table lists primes, and every remembered factorization is one. -/
structure Sound (t : FactorTable) (last : Nat) : Prop extends t.ListsPrimes last where
  memo : ∀ n factors, (n, factors) ∈ t.memo → 2 ≤ n ∧ IsFactorization n factors

/-- The second table has the primes of the first, and remembers in front what the first remembers. -/
structure Grows (t u : FactorTable) : Prop where
  primes : u.primes = t.primes
  memo : t.memo <+: u.memo

theorem Grows.refl (t : FactorTable) : t.Grows t := ⟨rfl, List.prefix_refl _⟩

theorem Grows.trans {v : FactorTable} (h : t.Grows u) (h' : u.Grows v) : t.Grows v :=
  ⟨h'.primes.trans h.primes, h.memo.trans h'.memo⟩

theorem Grows.known? (h : t.Grows u) (hk : t.known? n = some factors) : u.known? n = some factors := by
  obtain ⟨added, hadded⟩ := h.memo
  unfold FactorTable.known? at hk ⊢
  rw [← hadded, List.lookup_append, hk]
  rfl

theorem grows_remember (t : FactorTable) (n : Nat) (factors : List Nat) : t.Grows (t.remember n factors) := by
  unfold remember
  split
  · exact Grows.refl t
  · exact ⟨rfl, List.prefix_append _ _⟩

theorem Sound.remember (h : t.Sound last) (hn : 2 ≤ n) (hf : IsFactorization n factors) :
    (t.remember n factors).Sound last := by
  unfold FactorTable.remember
  split
  · exact h
  · refine ⟨⟨h.ascending, h.last_eq, h.odd, h.mem_iff⟩, fun k fs hmem => ?_⟩
    rcases List.mem_append.mp hmem with hold | hnew
    · exact h.memo k fs hold
    · obtain ⟨rfl, rfl⟩ := Prod.mk.inj (List.mem_singleton.mp hnew)
      exact ⟨hn, hf⟩

theorem Sound.of_known? (h : t.Sound last) (hk : t.known? n = some factors) :
    2 ≤ n ∧ IsFactorization n factors := by
  obtain ⟨before, after, hmemo, -⟩ := List.lookup_eq_some_iff.mp hk
  exact h.memo n factors (by rw [hmemo]; simp)

theorem Sound.two_le_last (h : t.Sound last) : 2 ≤ last :=
  ((h.mem_iff last).mp (List.mem_of_getLast? h.last_eq)).1.two_le

theorem Sound.firstBeyond_eq (h : t.Sound last) : t.firstBeyond = last + 2 := by
  rw [firstBeyond, List.getLastD_eq_getLast?, h.last_eq]
  rfl

end FactorTable

end Tables

/-! ## Divisors to come -/

section Divisors

/-- The trial divisors to come ascend, and no prime factor of `n` is missing from them. -/
structure TrialDivisors (n : Nat) (ds : List Nat) (next : Nat) : Prop where
  two_le : ∀ d ∈ ds, 2 ≤ d
  ascending : ds.Pairwise (· ≤ ·)
  le_next : ∀ d ∈ ds, d ≤ next
  two_le_next : 2 ≤ next
  covers : ∀ p, p.Prime → p ∣ n → p ∈ ds ∨ ∃ k, p = next + 2 * k

namespace TrialDivisors

variable {p : Nat}

theorem head_le (h : TrialDivisors n (d :: ds) next) (hp : p.Prime) (hdvd : p ∣ n) : d ≤ p := by
  rcases h.covers p hp hdvd with hmem | ⟨k, rfl⟩
  · rcases List.mem_cons.mp hmem with rfl | htail
    · exact le_rfl
    · exact (List.pairwise_cons.mp h.ascending).1 p htail
  · exact (h.le_next d List.mem_cons_self).trans (Nat.le_add_right _ _)

theorem next_le (h : TrialDivisors n [] next) (hp : p.Prime) (hdvd : p ∣ n) : next ≤ p := by
  rcases h.covers p hp hdvd with hmem | ⟨k, rfl⟩
  · exact absurd hmem List.not_mem_nil
  · exact Nat.le_add_right _ _

/-- What remains without the first divisor needs only the others. -/
theorem tail (h : TrialDivisors n (d :: ds) next) (hm : ∀ p, p.Prime → p ∣ m → p ∣ n ∧ p ≠ d) :
    TrialDivisors m ds next := by
  refine ⟨fun k hk => h.two_le k (List.mem_cons_of_mem _ hk), (List.pairwise_cons.mp h.ascending).2,
    fun k hk => h.le_next k (List.mem_cons_of_mem _ hk), h.two_le_next, fun p hp hdvd => ?_⟩
  obtain ⟨hdvd, hne⟩ := hm p hp hdvd
  rcases h.covers p hp hdvd with hmem | hbeyond
  · exact Or.inl ((List.mem_cons.mp hmem).resolve_left hne)
  · exact Or.inr hbeyond

theorem beyond (h : TrialDivisors n [] next) (hm : ∀ p, p.Prime → p ∣ m → p ∣ n ∧ p ≠ next) :
    TrialDivisors m [] (next + 2) := by
  refine ⟨fun k hk => absurd hk List.not_mem_nil, List.Pairwise.nil, fun k hk => absurd hk List.not_mem_nil,
    h.two_le_next.trans (Nat.le_add_right _ _), fun p hp hdvd => Or.inr ?_⟩
  obtain ⟨hdvd, hne⟩ := hm p hp hdvd
  rcases h.covers p hp hdvd with hmem | ⟨k, rfl⟩
  · exact absurd hmem List.not_mem_nil
  · cases k with
    | zero => exact absurd rfl hne
    | succ k => exact ⟨k, by omega⟩

/-- A table of primes and the odd numbers after it miss no prime. -/
theorem of_sound (h : t.Sound last) (n : Nat) : TrialDivisors n t.primes t.firstBeyond := by
  have hlast := h.two_le_last
  have hodd := h.odd
  rw [h.firstBeyond_eq]
  refine ⟨fun d hd => ((h.mem_iff d).mp hd).1.two_le, h.ascending, fun d hd => ?_, by omega, fun p hp _ => ?_⟩
  · exact ((h.mem_iff d).mp hd).2.trans (Nat.le_add_right _ _)
  · by_cases hle : p ≤ last
    · exact Or.inl ((h.mem_iff p).mpr ⟨hp, hle⟩)
    · have hp2 := hp.eq_two_or_odd
      exact Or.inr ⟨(p - (last + 2)) / 2, by omega⟩

end TrialDivisors

/-- Without a prime factor below `d` and below `d * d`, a number is prime. -/
theorem prime_of_lt_mul_self (hn : 2 ≤ n) (hlt : n < d * d) (hmin : ∀ p, p.Prime → p ∣ n → d ≤ p) : n.Prime := by
  by_contra hnot
  have hle := hmin n.minFac (Nat.minFac_prime (by omega)) n.minFac_dvd
  have hsq := Nat.minFac_sq_le_self (by omega) hnot
  rw [pow_two] at hsq
  exact absurd ((Nat.mul_le_mul hle hle).trans hsq) (by omega)

theorem not_prime_of_dvd (hd : 2 ≤ d) (hle : d * d ≤ n) (hdvd : d ∣ n) : ¬n.Prime := by
  intro hp
  rcases (Nat.dvd_prime hp).mp hdvd with rfl | rfl
  · omega
  · have := Nat.mul_le_mul_right d hd
    omega

/-- A number has a trial divisor up to its root exactly when it is not prime. -/
theorem hasDivisor_iff (hn : 2 ≤ n) (h : TrialDivisors n ds next) :
    hasDivisor n ds next = true ↔ ¬n.Prime := by
  fun_induction hasDivisor n ds next with
  | case1 d ds next hlt =>
    exact iff_of_false Bool.false_ne_true (not_not.mpr (prime_of_lt_mul_self hn hlt fun p => h.head_le))
  | case2 d ds next hge hdvd =>
    exact iff_of_true rfl
      (not_prime_of_dvd (h.two_le d List.mem_cons_self) (Nat.le_of_not_lt hge) (Nat.dvd_of_mod_eq_zero hdvd))
  | case3 d ds next hge hndvd ih =>
    refine ih (h.tail fun p _ hp => ⟨hp, ?_⟩)
    rintro rfl
    exact hndvd (Nat.mod_eq_zero_of_dvd hp)
  | case4 next hlt =>
    exact iff_of_false Bool.false_ne_true (not_not.mpr (prime_of_lt_mul_self hn hlt fun p => h.next_le))
  | case5 next hge hdvd =>
    exact iff_of_true rfl
      (not_prime_of_dvd h.two_le_next (Nat.le_of_not_lt hge) (Nat.dvd_of_mod_eq_zero hdvd))
  | case6 next hge hndvd ih =>
    refine ih (h.beyond fun p _ hp => ⟨hp, ?_⟩)
    rintro rfl
    exact hndvd (Nat.mod_eq_zero_of_dvd hp)

end Divisors

/-! ## A factorization under way -/

section Trials

namespace Trial

variable {s : Trial}

/-- What has been found of the factors of `n`, none of them above a prime factor of what remains.  The table
is sound and has grown from `t`. -/
structure UnderWay (s : Trial) (n : Nat) (t : FactorTable) (last : Nat) : Prop where
  prod : s.factors.prod * s.remaining = n
  ascending : s.factors.Pairwise (· ≤ ·)
  prime : ∀ p ∈ s.factors, p.Prime
  below : ∀ f ∈ s.factors, ∀ p, p.Prime → p ∣ s.remaining → f ≤ p
  product : 1 < s.remaining → s.product = s.factors.prod
  table : s.table.Sound last
  grown : t.Grows s.table

/-- One division by `d`, with the partial product remembered. -/
def divided (d : Nat) (s : Trial) : Trial where
  remaining := s.remaining / d
  product := s.product * d
  factors := s.factors ++ [d]
  table := s.table.remember (s.product * d) (s.factors ++ [d])

/-- The factors that are known of what remains. -/
def completed (known : List Nat) (s : Trial) : Trial := { s with remaining := 1, factors := s.factors ++ known }

/-- The least divisor of what remains is prime, and dividing by it keeps what was found. -/
theorem UnderWay.divided (h : s.UnderWay n t last) (hd : d.Prime) (hdvd : d ∣ s.remaining)
    (hone : 1 < s.remaining) (hmin : ∀ p, p.Prime → p ∣ s.remaining → d ≤ p) :
    (s.divided d).UnderWay n t last := by
  have hprod : (s.factors ++ [d]).prod = s.product * d := by
    rw [List.prod_append, List.prod_singleton, h.product hone]
  have hascending : (s.factors ++ [d]).Pairwise (· ≤ ·) := by
    refine List.pairwise_append.mpr ⟨h.ascending, List.pairwise_singleton _ d, fun f hf k hk => ?_⟩
    rw [List.mem_singleton.mp hk]
    exact h.below f hf d hd hdvd
  have hprime : ∀ p ∈ s.factors ++ [d], p.Prime :=
    List.forall_mem_append.mpr ⟨h.prime, List.forall_mem_singleton.mpr hd⟩
  have htwo : 2 ≤ s.product * d := by
    rw [h.product hone]
    have hne : s.factors.prod ≠ 0 := List.prod_ne_zero fun hzero => Nat.not_prime_zero (h.prime 0 hzero)
    exact hd.two_le.trans (Nat.le_mul_of_pos_left d (Nat.pos_of_ne_zero hne))
  refine ⟨?_, hascending, hprime, fun f hf p hp hpd => ?_, fun _ => hprod.symm,
    h.table.remember htwo ⟨hascending, hprime, hprod⟩, h.grown.trans (FactorTable.grows_remember _ _ _)⟩
  · show (s.factors ++ [d]).prod * (s.remaining / d) = n
    rw [List.prod_append, List.prod_singleton, mul_assoc, Nat.mul_div_cancel' hdvd, h.prod]
  · have hold : p ∣ s.remaining := hpd.trans (Nat.div_dvd_of_dvd hdvd)
    rcases List.mem_append.mp hf with hf | hf
    · exact h.below f hf p hp hold
    · exact List.mem_singleton.mp hf ▸ hmin p hp hold

/-- A known factorization of what remains completes what was found. -/
theorem UnderWay.completed (h : s.UnderWay n t last) (hk : s.table.known? s.remaining = some known) :
    (s.completed known).UnderWay n t last := by
  obtain ⟨-, hfact⟩ := h.table.of_known? hk
  have hdvd : ∀ p ∈ known, p ∣ s.remaining := fun p hp => hfact.prod ▸ List.dvd_prod hp
  refine ⟨?_, ?_, List.forall_mem_append.mpr ⟨h.prime, hfact.prime⟩, fun f _ p hp hpd => ?_,
    fun hone => absurd hone (lt_irrefl 1), h.table, h.grown⟩
  · show (s.factors ++ known).prod * 1 = n
    rw [mul_one, List.prod_append, hfact.prod, h.prod]
  · exact List.pairwise_append.mpr ⟨h.ascending, hfact.ascending,
      fun f hf p hp => h.below f hf p (hfact.prime p hp) (hdvd p hp)⟩
  · exact absurd (Nat.dvd_one.mp hpd) hp.ne_one

/-- Where the trial divisor is at least 2, divisibility alone decides whether it is divided out. -/
theorem divideOut_eq (hd : 2 ≤ d) (hpos : 0 < s.remaining) :
    s.divideOut d =
      if d ∣ s.remaining then
        match if 1 < (s.divided d).remaining then (s.divided d).table.known? (s.divided d).remaining else none with
        | some known => (s.divided d).completed known
        | none => (s.divided d).divideOut d
      else s := by
  rw [divideOut]
  by_cases hdvd : d ∣ s.remaining
  · have hone : 1 < s.remaining := hd.trans (Nat.le_of_dvd hpos hdvd)
    rw [dif_pos ⟨hd, hone, Nat.mod_eq_zero_of_dvd hdvd⟩, if_pos hdvd]
    rfl
  · rw [dif_neg fun hno => hdvd (Nat.dvd_of_mod_eq_zero hno.2.2), if_neg hdvd]

/-- Dividing out the least trial divisor keeps what was found and takes that divisor away. -/
theorem UnderWay.divideOut (hn : 0 < n) (hd : 2 ≤ d) (h : s.UnderWay n t last)
    (hmin : ∀ p, p.Prime → p ∣ s.remaining → d ≤ p) :
    (s.divideOut d).UnderWay n t last ∧
      ∀ p, p.Prime → p ∣ (s.divideOut d).remaining → p ∣ s.remaining ∧ p ≠ d := by
  -- on what remains, which every division makes smaller
  induction hrem : s.remaining using Nat.strong_induction_on generalizing s with
  | _ r ih =>
    subst hrem
    have hpos : 0 < s.remaining := Nat.pos_of_ne_zero fun hzero => by
      rw [← h.prod, hzero, mul_zero] at hn
      exact lt_irrefl 0 hn
    rw [divideOut_eq hd hpos]
    by_cases hdvd : d ∣ s.remaining
    · have hone : 1 < s.remaining := hd.trans (Nat.le_of_dvd hpos hdvd)
      have hsub : ∀ p, p ∣ (s.divided d).remaining → p ∣ s.remaining :=
        fun p hp => hp.trans (Nat.div_dvd_of_dvd hdvd)
      -- a composite `d` would have a smaller prime factor, and that was divided out before
      have hfirst : d.minFac.Prime := Nat.minFac_prime (by omega)
      have hprime : d.Prime :=
        le_antisymm (hmin _ hfirst (d.minFac_dvd.trans hdvd)) (Nat.minFac_le (by omega)) ▸ hfirst
      have hdivided := h.divided hprime hdvd hone hmin
      rw [if_pos hdvd]
      split
      · rename_i known hknown
        have hlookup := (Option.ite_none_right_eq_some.mp hknown).2
        exact ⟨hdivided.completed hlookup, fun p hp hpd => absurd (Nat.dvd_one.mp hpd) hp.ne_one⟩
      · obtain ⟨hout, hgone⟩ := ih _ (Nat.div_lt_self hpos hd) hdivided (fun p hp hpd => hmin p hp (hsub p hpd)) rfl
        exact ⟨hout, fun p hp hpd => ⟨hsub p (hgone p hp hpd).1, (hgone p hp hpd).2⟩⟩
    · rw [if_neg hdvd]
      refine ⟨h, fun p _ hpd => ⟨hpd, ?_⟩⟩
      rintro rfl
      exact hdvd hpd

/-- What remains below the square of its least possible prime factor is 1 or prime. -/
theorem le_one_or_prime (hlt : m < d * d) (hmin : ∀ p, p.Prime → p ∣ m → d ≤ p) : m ≤ 1 ∨ m.Prime := by
  by_cases hone : m ≤ 1
  · exact Or.inl hone
  · exact Or.inr (prime_of_lt_mul_self (by omega) hlt hmin)

/-- Trial division by divisors that miss no prime factor leaves 1 or a prime. -/
theorem UnderWay.run (hn : 0 < n) (h : s.UnderWay n t last) (hds : TrialDivisors s.remaining ds next) :
    (s.run ds next).UnderWay n t last ∧ ((s.run ds next).remaining ≤ 1 ∨ (s.run ds next).remaining.Prime) := by
  fun_induction Trial.run s ds next with
  | case1 s d ds next hlt => exact ⟨h, le_one_or_prime hlt fun p => hds.head_le⟩
  | case2 s d ds next hge ih =>
    obtain ⟨hout, hgone⟩ := h.divideOut hn (hds.two_le d List.mem_cons_self) fun p => hds.head_le
    exact ih hout (hds.tail hgone)
  | case3 s next hlt => exact ⟨h, le_one_or_prime hlt fun p => hds.next_le⟩
  | case4 s next hge ih =>
    obtain ⟨hout, hgone⟩ := h.divideOut hn hds.two_le_next fun p => hds.next_le
    exact ih hout (hds.beyond hgone)

/-- What trial division ends in are the prime factors of the number. -/
theorem UnderWay.isFactorization_sorted (h : s.UnderWay n t last) (hn : 0 < n)
    (hend : s.remaining ≤ 1 ∨ s.remaining.Prime) : IsFactorization n s.sorted := by
  have hperm : s.sorted.Perm (if 1 < s.remaining then s.factors ++ [s.remaining] else s.factors) :=
    List.mergeSort_perm _ _
  refine ⟨List.pairwise_mergeSort' _ _, fun p hp => ?_, ?_⟩
  · have hmem := hperm.mem_iff.mp hp
    split at hmem
    · rename_i hone
      have hlast := hend.resolve_left (by omega)
      exact (List.forall_mem_append.mpr ⟨h.prime, List.forall_mem_singleton.mpr hlast⟩) p hmem
    · exact h.prime p hmem
  · rw [hperm.prod_eq]
    split
    · rw [List.prod_append, List.prod_singleton, h.prod]
    · have hprod := h.prod
      have hrem : s.remaining ≠ 0 := fun hzero => by
        rw [hzero, mul_zero] at hprod
        omega
      rwa [show s.remaining = 1 by omega, mul_one] at hprod

theorem underWay_start (h : t.Sound last) (n : Nat) : UnderWay ⟨n, 1, [], t⟩ n t last :=
  ⟨one_mul n, List.Pairwise.nil, fun _ hp => absurd hp List.not_mem_nil, fun _ hf => absurd hf List.not_mem_nil,
    fun _ => rfl, h, FactorTable.Grows.refl t⟩

end Trial

end Trials

end ExactLP
