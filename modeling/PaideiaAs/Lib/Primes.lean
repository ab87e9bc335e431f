-- Primes by the test of Lucas: powers by repeated squaring, and certificates in which the
-- prime factors of every predecessor are certified before.
import Mathlib.NumberTheory.LucasPrimality

namespace Primes

/-! ## Powers -/

/-- `a ^ n` modulo `m`, over the `k` low bits of `n`. -/
def powMod (m : Nat) : Nat → Nat → Nat → Nat
  | 0, _, _ => 1 % m
  | k + 1, a, n => if n % 2 = 1 then powMod m k (a * a % m) (n / 2) * a % m
    else powMod m k (a * a % m) (n / 2)

theorem cast_powMod {m k a n : Nat} (hn : n < 2 ^ k) :
    ((powMod m k a n : Nat) : ZMod m) = (a : ZMod m) ^ n := by
  induction k generalizing a n with
  | zero =>
    obtain rfl : n = 0 := Nat.lt_one_iff.1 hn
    unfold powMod
    rw [ZMod.natCast_mod, Nat.cast_one, pow_zero]
  | succ k ih =>
    have hhalf : n / 2 < 2 ^ k := by
      rw [pow_succ] at hn
      omega
    have hsquare : ((a * a % m : Nat) : ZMod m) ^ (n / 2) = (a : ZMod m) ^ (n / 2 * 2) := by
      rw [ZMod.natCast_mod, Nat.cast_mul, mul_comm (n / 2), pow_mul, sq]
    unfold powMod
    split
    · have hodd : n / 2 * 2 + 1 = n := by omega
      rw [ZMod.natCast_mod, Nat.cast_mul, ih hhalf, hsquare, ← pow_succ, hodd]
    · have heven : n / 2 * 2 = n := by omega
      rw [ih hhalf, hsquare, heven]

theorem powMod_lt {m : Nat} (hm : 0 < m) (k a n : Nat) : powMod m k a n < m := by
  induction k generalizing a n with
  | zero => exact Nat.mod_lt _ hm
  | succ k ih =>
    unfold powMod
    split
    · exact Nat.mod_lt _ hm
    · exact ih _ _

/-- A power is one exactly where the computed one is. -/
theorem pow_eq_one_iff {m k a n : Nat} (hm : 2 ≤ m) (hn : n < 2 ^ k) :
    (a : ZMod m) ^ n = 1 ↔ powMod m k a n = 1 := by
  rw [← cast_powMod hn, ← Nat.cast_one, ZMod.natCast_eq_natCast_iff', Nat.mod_eq_of_lt hm,
    Nat.mod_eq_of_lt (powMod_lt (by omega) ..)]

/-! ## Certificates -/

/-- A number below 10000 without a divisor below 100. -/
def small (q : Nat) : Bool :=
  decide (2 ≤ q) && decide (q < 10000) &&
    (List.range 100).all fun e => decide (e < 2) || decide (q ≤ e) || q % e != 0

theorem prime_of_small {q : Nat} (h : small q = true) : q.Prime := by
  unfold small at h
  simp only [Bool.and_eq_true, decide_eq_true_eq, List.all_eq_true, List.mem_range,
    Bool.or_eq_true, bne_iff_ne] at h
  obtain ⟨⟨h2, hlt⟩, hdiv⟩ := h
  by_contra hq
  have hsq := Nat.minFac_sq_le_self (by omega) hq
  have hmin := (Nat.minFac_prime (n := q) (by omega)).two_le
  have h100 : q.minFac < 100 := by
    by_contra hge
    have := Nat.pow_le_pow_left (Nat.le_of_not_lt hge) 2
    omega
  rcases hdiv _ h100 with (h | h) | h
  · omega
  · have := Nat.le_self_pow (n := 2) (by decide) q.minFac
    have hself : q.minFac = q := by omega
    exact hq (hself ▸ Nat.minFac_prime (by omega))
  · exact h (Nat.mod_eq_zero_of_dvd q.minFac_dvd)

/-- A prime, the base of its test, and its predecessor in prime powers. -/
structure Entry where
  prime : Nat
  base : Nat
  factors : List (Nat × Nat)

/-- A prime that divides a product of prime powers is one of these primes. -/
theorem base_of_dvd {fs : List (Nat × Nat)} {q : Nat} (hfs : ∀ f ∈ fs, f.1.Prime)
    (hq : q.Prime) (h : q ∣ (fs.map fun f => f.1 ^ f.2).prod) : ∃ f ∈ fs, f.1 = q := by
  induction fs with
  | nil =>
    rw [List.map_nil, List.prod_nil] at h
    exact absurd (Nat.dvd_one.1 h) hq.one_lt.ne'
  | cons f fs ih =>
    rw [List.map_cons, List.prod_cons] at h
    rcases hq.dvd_mul.1 h with h | h
    · have hf := hfs f (.head _)
      exact ⟨f, .head _, ((Nat.prime_dvd_prime_iff_eq hq hf).1 (hq.dvd_of_dvd_pow h)).symm⟩
    · obtain ⟨g, hg, hgq⟩ := ih (fun g hg => hfs g (.tail _ hg)) h
      exact ⟨g, .tail _ hg, hgq⟩

/-- The test of one entry, over the primes that are known. -/
def Entry.passes (known : List Nat) (e : Entry) : Bool :=
  let bits := e.prime.log2 + 1
  decide (2 ≤ e.prime) && (e.factors.all fun f => small f.1 || known.contains f.1) &&
    (e.factors.map fun f => f.1 ^ f.2).prod == e.prime - 1 &&
    powMod e.prime bits e.base (e.prime - 1) == 1 &&
    e.factors.all fun f => powMod e.prime bits e.base ((e.prime - 1) / f.1) != 1

theorem Entry.prime_of_passes {known : List Nat} {e : Entry} (hknown : ∀ q ∈ known, q.Prime)
    (h : e.passes known = true) : e.prime.Prime := by
  unfold passes at h
  simp only [Bool.and_eq_true, decide_eq_true_eq, List.all_eq_true, Bool.or_eq_true,
    List.contains_iff_mem, beq_iff_eq, bne_iff_ne] at h
  obtain ⟨⟨⟨⟨h2, hprimes⟩, hprod⟩, hone⟩, hother⟩ := h
  have hbits : ∀ n ≤ e.prime - 1, n < 2 ^ (e.prime.log2 + 1) := by
    intro n hn
    have := Nat.lt_log2_self (n := e.prime)
    omega
  apply lucas_primality e.prime (e.base : ZMod e.prime)
  · exact (pow_eq_one_iff h2 (hbits _ (Nat.le_refl _))).2 hone
  · intro q hq hdvd
    have hbases : ∀ f ∈ e.factors, f.1.Prime := by
      intro f hf
      rcases hprimes f hf with h | h
      · exact prime_of_small h
      · exact hknown _ h
    obtain ⟨f, hf, rfl⟩ := base_of_dvd hbases hq (hprod ▸ hdvd)
    intro hpow
    exact hother f hf ((pow_eq_one_iff h2 (hbits _ (Nat.div_le_self _ _))).1 hpow)

/-- Every entry passes over the primes of the entries before it. -/
def certifies : List Nat → List Entry → Bool
  | _, [] => true
  | known, e :: es => e.passes known && certifies (e.prime :: known) es

theorem prime_of_certifies {known : List Nat} {es : List Entry} (hknown : ∀ q ∈ known, q.Prime)
    (h : certifies known es = true) : ∀ e ∈ es, e.prime.Prime := by
  induction es generalizing known with
  | nil =>
    intro e he
    cases he
  | cons e es ih =>
    unfold certifies at h
    rw [Bool.and_eq_true] at h
    have hp := e.prime_of_passes hknown h.1
    intro e' he'
    rcases List.mem_cons.1 he' with rfl | he'
    · exact hp
    · apply ih _ h.2 e' he'
      intro q hq
      rcases List.mem_cons.1 hq with rfl | hq
      · exact hp
      · exact hknown q hq

theorem prime_of_certificate {es : List Entry} {e : Entry}
    (h : certifies [] (es ++ [e]) = true) : e.prime.Prime :=
  prime_of_certifies (fun _ hq => absurd hq List.not_mem_nil) h e (by simp)

end Primes
