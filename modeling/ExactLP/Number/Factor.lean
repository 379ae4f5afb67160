import ExactLP.Number.Fault

/-!
# Number.Factor — prime factors by trial division, remembered

A `FactorTable` holds a table of primes and the factorizations found so far.  Trial divisors are the
table in its order and then the numbers `last + 2, last + 4, …` after its last entry.

* `isPrime`: a number below the last entry is prime when the table lists it, any other when no trial
  divisor up to its root divides it; primes beyond the table are remembered.
* `factorize`: the prime factors in ascending order.  Each partial product met on the way is
  remembered, and a remaining cofactor that is already known ends the division at once.
* `commonFactor`: the greatest common factor, from the factors of the smaller number.

An entry below 2 is never divided out of a number.
-/

namespace ExactLP

/-- A table of primes and the factorizations found so far. -/
structure FactorTable where
  primes : List Nat
  memo : List (Nat × List Nat) := []

/-- Computations that may add factorizations to a table; what was added before a fault stays. -/
abbrev Factoring := ExceptT NumberFault (StateM FactorTable)

namespace FactorTable

/-- The primes below 1000. -/
def smallPrimes : List Nat :=
  [2, 3, 5, 7, 11, 13, 17, 19, 23, 29, 31, 37, 41, 43, 47, 53, 59, 61, 67, 71, 73, 79, 83, 89, 97,
    101, 103, 107, 109, 113, 127, 131, 137, 139, 149, 151, 157, 163, 167, 173, 179, 181, 191, 193, 197, 199,
    211, 223, 227, 229, 233, 239, 241, 251, 257, 263, 269, 271, 277, 281, 283, 293,
    307, 311, 313, 317, 331, 337, 347, 349, 353, 359, 367, 373, 379, 383, 389, 397,
    401, 409, 419, 421, 431, 433, 439, 443, 449, 457, 461, 463, 467, 479, 487, 491, 499,
    503, 509, 521, 523, 541, 547, 557, 563, 569, 571, 577, 587, 593, 599,
    601, 607, 613, 617, 619, 631, 641, 643, 647, 653, 659, 661, 673, 677, 683, 691,
    701, 709, 719, 727, 733, 739, 743, 751, 757, 761, 769, 773, 787, 797,
    809, 811, 821, 823, 827, 829, 839, 853, 857, 859, 863, 877, 881, 883, 887,
    907, 911, 919, 929, 937, 941, 947, 953, 967, 971, 977, 983, 991, 997]

/-- A table of the primes below 1000 that remembers nothing yet. -/
def fresh : FactorTable := ⟨smallPrimes, []⟩

/-- The factorization remembered for `n`. -/
def known? (t : FactorTable) (n : Nat) : Option (List Nat) :=
  t.memo.lookup n

/-- Remembers a factorization of `n`, unless there is one. -/
def remember (t : FactorTable) (n : Nat) (factors : List Nat) : FactorTable :=
  if (t.known? n).isSome then t else { t with memo := t.memo ++ [(n, factors)] }

/-- What is remembered, by ascending number. -/
def remembered (t : FactorTable) : List (Nat × List Nat) :=
  t.memo.mergeSort fun a b => a.1 ≤ b.1

/-- The first trial divisor after the table. -/
def firstBeyond (t : FactorTable) : Nat :=
  t.primes.getLastD 0 + 2

end FactorTable

/-! ## Trial division -/

/-- Some trial divisor, of those in order up to the first whose square exceeds `n`, divides `n`. -/
def hasDivisor (n : Nat) : List Nat → Nat → Bool
  | d :: ds, next => if n < d * d then false else if n % d = 0 then true else hasDivisor n ds next
  | [], next => if n < next * next then false else if n % next = 0 then true else hasDivisor n [] (next + 2)
termination_by ds next => (ds.length, n + 1 - next)
decreasing_by
  · exact Prod.Lex.left _ _ (by simp)
  · rename_i hle _
    have hself := Nat.le_mul_self next
    exact Prod.Lex.right _ (by omega)

/-- A factorization under way: `product * remaining` is the number, `factors` those of `product`. -/
structure Trial where
  remaining : Nat
  product : Nat
  factors : List Nat
  table : FactorTable

namespace Trial

/-- Divides by `d` as often as it goes, or up to a cofactor that the table knows. -/
def divideOut (d : Nat) (s : Trial) : Trial :=
  if _h : 1 < d ∧ 1 < s.remaining ∧ s.remaining % d = 0 then
    let remaining := s.remaining / d
    let product := s.product * d
    let factors := s.factors ++ [d]
    let table := s.table.remember product factors
    match if 1 < remaining then table.known? remaining else none with
    | some known => ⟨1, product, factors ++ known, table⟩
    | none => divideOut d ⟨remaining, product, factors, table⟩
  else s
termination_by s.remaining
decreasing_by exact Nat.div_lt_self (by omega) _h.1

theorem remaining_divideOut_le (d : Nat) (s : Trial) : (s.divideOut d).remaining ≤ s.remaining := by
  fun_induction divideOut d s with
  | case1 s h _ _ _ _ known _ => show 1 ≤ s.remaining; omega
  | case2 s h _ _ _ _ _ ih => exact Nat.le_trans ih (Nat.div_le_self _ _)
  | case3 => exact Nat.le_refl _

/-- Divides by the trial divisors in order, up to the first whose square exceeds what remains. -/
def run (s : Trial) : List Nat → Nat → Trial
  | d :: ds, next => if s.remaining < d * d then s else (s.divideOut d).run ds next
  | [], next => if s.remaining < next * next then s else (s.divideOut next).run [] (next + 2)
termination_by ds next => (ds.length, s.remaining + 1 - next)
decreasing_by
  · exact Prod.Lex.left _ _ (by simp)
  · have hself := Nat.le_mul_self next
    have hle := remaining_divideOut_le next s
    exact Prod.Lex.right _ (by omega)

/-- The factors in ascending order; what remains above 1 is one of them. -/
def sorted (s : Trial) : List Nat :=
  (if 1 < s.remaining then s.factors ++ [s.remaining] else s.factors).mergeSort

end Trial

/-! ## The three questions -/

/-- Whether `n` counts as a prime. -/
def isPrime (n : Nat) : Factoring Bool := do
  let t ← get
  if n < 2 then return false
  else if t.primes.contains n then return true
  else match t.primes.getLast? with
    | none => throw .noPrimes
    | some last =>
      if n < last then return false
      else match t.known? n with
        | some factors => return factors.length == 1
        | none =>
          if hasDivisor n t.primes t.firstBeyond then return false
          else do
            set (t.remember n [n])
            return true

/-- The prime factors of a natural number in ascending order; 0 and 1 are their own factors. -/
def factorizeNat (n : Nat) : Factoring (List Nat) := do
  if n < 2 then return [n]
  else match (← get).known? n with
    | some factors => return factors
    | none =>
      if ← isPrime n then return [n]
      else
        let t ← get
        let s := Trial.run ⟨n, 1, [], t⟩ t.primes t.firstBeyond
        set (s.table.remember n s.sorted)
        return s.sorted

/-- The prime factors of an integer; a negative one starts with -1. -/
def factorize (n : Int) : Factoring (List Int) := do
  let factors := (← factorizeNat n.natAbs).map Int.ofNat
  return if n < 0 then -1 :: factors else factors

/-- The product of those `factors`, in order, that divide what is left of `other`. -/
def sharedProduct (factors : List Nat) (other : Nat) : Nat :=
  match factors with
  | [] => 1
  | f :: rest => if other % f = 0 then f * sharedProduct rest (other / f) else sharedProduct rest other

/-- The greatest common factor of two integers; 1 when one of them is 0. -/
def commonFactor (a b : Int) : Factoring Nat := do
  let m := a.natAbs
  let n := b.natAbs
  if m = 0 ∨ n = 0 ∨ m = 1 ∨ n = 1 then return 1
  else if m = n then return m
  else if m < n then return sharedProduct (← factorizeNat m) n
  else return sharedProduct (← factorizeNat n) m

end ExactLP
