import KeyTree.Ecdsa.Nonce
import KeyTree.Proofs.Ecdsa.Equation
import KeyTree.Proofs.EllipticCurve.Order

/-!
# The signer finds a nonce

A nonce gives no signature when it is zero, when its point shows zero, or when its point shows the
one scalar for which the second half vanishes. An x coordinate belongs to two points, and a scalar
to two x coordinates at most, so besides zero there are eight such nonces. Hence the last resort of
the signer, ten numbers in a row, never fails.

* `exists_signWith?_sign`: the signature of the library is the one of some nonce, for every digest,
  every key but zero, and whatever the stream of nonces holds.
-/

namespace KeyTree.Ecdsa

open KeyTree.Modular KeyTree.Weierstrass

variable {p n : ℕ} [Modulus p] [Modulus n] (D : Ecdsa p n)

/-- Ten neighbours are ten scalars. -/
theorem residue_add_injOn (hn : 10 ≤ n) (m : ℕ) :
    Set.InjOn (fun i => residue n (m + i)) (Finset.range 10 : Set ℕ) := by
  intro i hi j hj h
  have hi' : i < 10 := by simpa using hi
  have hj' : j < 10 := by simpa using hj
  have hval : (m + i) % n = (m + j) % n := congrArg Fin.val h
  have hmod : i ≡ j [MOD n] := Nat.ModEq.add_left_cancel' m hval
  exact Nat.ModEq.eq_of_lt_of_lt hmod (by omega) (by omega)

/-! ## Nonces without a signature -/

/-- The nonces whose point shows the scalar `r`. -/
def showing (r : Fin n) : Finset (Fin n) :=
  Finset.univ.filter fun k => xScalar? (D.baseMultiple k) = some r

/-- A nonce shows `r` if the x coordinate of its point is `r` as a scalar. -/
theorem mem_showing {k r : Fin n} :
    k ∈ D.showing r ↔ xScalar? (D.baseMultiple k) = some r := by
  simp [showing]

/-- The codes of the points that show the scalar `r`. -/
def codes {n : ℕ} (p : ℕ) [Fact p.Prime] (r : Fin n) : Finset (Option (ZMod p × Bool)) :=
  (({(r.val : ZMod p), ((r.val + n : ℕ) : ZMod p)} : Finset (ZMod p)) ×ˢ Finset.univ).map
    Function.Embedding.some

/-- At most two x coordinates show a scalar, each with two parities of y. -/
theorem card_codes_le {n p : ℕ} [Fact p.Prime] (r : Fin n) : (codes p r).card ≤ 4 := by
  unfold codes
  rw [Finset.card_map, Finset.card_product, Finset.card_univ, Fintype.card_bool]
  have h2 : ({(r.val : ZMod p), ((r.val + n : ℕ) : ZMod p)} : Finset (ZMod p)).card ≤ 2 :=
    Finset.card_le_two
  omega

variable [Fact p.Prime] [Fact n.Prime] [D.PrimeOrder]

/-- The point of a nonce that shows `r` has one of the codes for `r`: its x coordinate is below `p`
and so below `2 n`, and is `r` or `r + n`. -/
theorem parityCode_mem_codes (hpn : p < 2 * n) {k r : Fin n} (hk : k ∈ D.showing r) :
    parityCode (toZMod k • D.generator) ∈ codes p r := by
  rw [mem_showing, baseMultiple_eq] at hk
  rcases hP : toZMod k • D.generator with _ | ⟨x, y, h⟩
  · rw [hP] at hk
    exact absurd hk (by simp [coords, xScalar?])
  · rw [hP, coords_some] at hk
    have hmod : x.val % n = r.val := by
      have hres : residue n x.val = r := by simpa [xScalar?] using hk
      rw [← hres, val_residue]
    have hlt : x.val < 2 * n := lt_trans (ZMod.val_lt x) hpn
    have hr := r.isLt
    -- below twice the order two numbers have this residue
    have hx : x.val = r.val ∨ x.val = r.val + n := by
      have hdiv := Nat.div_add_mod x.val n
      have hq : x.val / n < 2 := Nat.div_lt_of_lt_mul (by rwa [mul_comm] at hlt)
      interval_cases hq' : x.val / n
      · left
        omega
      · right
        omega
    unfold codes parityCode
    rw [Finset.mem_map]
    refine ⟨(x, y.val % 2 = 0), ?_, rfl⟩
    rw [Finset.mem_product]
    refine ⟨?_, Finset.mem_univ _⟩
    rw [Finset.mem_insert, Finset.mem_singleton, ← ZMod.natCast_zmod_val x]
    rcases hx with hx | hx
    · left
      rw [hx]
    · right
      rw [hx]

/-- At most four nonces show a scalar: a point is told by its code, and a nonce by its point. -/
theorem card_showing_le (hp : p % 2 = 1) (hpn : p < 2 * n) (r : Fin n) :
    (D.showing r).card ≤ 4 := by
  have hinj : Function.Injective fun k : Fin n =>
      (parityCode (toZMod k • D.generator) : Option (ZMod p × Bool)) := by
    intro k l h
    exact toZMod_injective (D.smul_generator_injective (parityCode_injective hp h))
  have hle := Finset.card_le_card_of_injOn _
    (fun k hk => D.parityCode_mem_codes hpn hk) (hinj.injOn (s := D.showing r))
  exact hle.trans (card_codes_le r)

/-- The nonces that give no signature of the digest `z` under the key `d`. -/
def badNonces (z d : Fin n) : Finset (Fin n) :=
  insert 0 (D.showing 0 ∪ D.showing (ofZMod (-(toZMod z / toZMod d))))

/-- At most nine nonces give no signature: zero, four that show zero, and four that show the one `r`
for which `s` is zero. -/
theorem card_badNonces_le (hp : p % 2 = 1) (hpn : p < 2 * n) (z d : Fin n) :
    (D.badNonces z d).card ≤ 9 := by
  have h₁ := D.card_showing_le hp hpn 0
  have h₂ := D.card_showing_le hp hpn (ofZMod (-(toZMod z / toZMod d)))
  have hu := Finset.card_union_le (D.showing 0) (D.showing (ofZMod (-(toZMod z / toZMod d))))
  have hi := Finset.card_insert_le 0
    (D.showing 0 ∪ D.showing (ofZMod (-(toZMod z / toZMod d))))
  unfold badNonces
  omega

/-- A nonce that gives no signature is one of the bad ones. -/
theorem mem_badNonces_of_signWith?_eq_none {z d k : Fin n} (hd : d ≠ 0)
    (h : D.signWith? z d k = none) : k ∈ D.badNonces z d := by
  have hd0 : toZMod d ≠ 0 := fun h0 => hd (toZMod_eq_zero.1 h0)
  unfold badNonces
  rw [Finset.mem_insert, Finset.mem_union, mem_showing, mem_showing]
  by_cases hk : k = 0
  · left
    exact hk
  right
  have hk0 : toZMod k ≠ 0 := fun h0 => hk (toZMod_eq_zero.1 h0)
  cases hx : (xScalar? (D.baseMultiple k) : Option (Fin n)) with
  | none =>
    -- only zero leads to infinity
    rw [baseMultiple_eq] at hx
    rcases hP : toZMod k • D.generator with _ | ⟨x, y, hxy⟩
    · rcases smul_eq_zero.1 hP with h0 | h0
      · exact absurd h0 hk0
      · exact absurd h0 D.generator_ne_zero
    · rw [hP, coords_some] at hx
      exact absurd hx (by simp [xScalar?])
  | some r =>
    by_cases hr : r = 0
    · left
      rw [hr]
    · right
      rw [Option.some.injEq, eq_ofZMod_iff]
      by_contra hne
      have hs : inverse k * (z + r * d) ≠ 0 := by
        rw [ne_eq, ← toZMod_eq_zero, toZMod_mul, toZMod_inverse hk, toZMod_add, toZMod_mul]
        intro h0
        rcases mul_eq_zero.1 h0 with h0 | h0
        · exact inv_ne_zero hk0 h0
        · apply hne
          field_simp
          linear_combination h0
      have hsome := signWith?_eq_some_iff.2 ⟨hx, hr, hs, rfl⟩
      rw [h] at hsome
      exact absurd hsome (by simp)

/-! ## Ten numbers in a row -/

/-- Of ten numbers in a row one is a good nonce. -/
theorem exists_signWith?_residue (hp : p % 2 = 1) (hpn : p < 2 * n) (hn : 10 ≤ n) (z : Fin n)
    {d : Fin n} (hd : d ≠ 0) (m : ℕ) :
    ∃ i < 10, D.signWith? z d (residue n (m + i)) ≠ none := by
  have hcard : ((Finset.range 10).image fun i => residue n (m + i)).card = 10 := by
    rw [Finset.card_image_of_injOn (residue_add_injOn hn m), Finset.card_range]
  have hbad := D.card_badNonces_le hp hpn z d
  obtain ⟨k, hk, hgood⟩ := Finset.exists_mem_notMem_of_card_lt_card
    (lt_of_le_of_lt hbad (by rw [hcard]; norm_num))
  rcases Finset.mem_image.1 hk with ⟨i, hi, rfl⟩
  refine ⟨i, Finset.mem_range.1 hi, ?_⟩
  intro hnone
  exact hgood (D.mem_badNonces_of_signWith?_eq_none hd hnone)

/-! ## The stream of nonces -/

/-- Whatever the stream holds, the search ends with the signature of some nonce. -/
theorem exists_signFrom? (hp : p % 2 = 1) (hpn : p < 2 * n) (hn : 10 ≤ n) (z : Fin n) {d : Fin n}
    (hd : d ≠ 0) (k : ℕ) (stream : NonceStream) :
    ∃ nonce sig, D.signFrom? z d k stream = some sig ∧ D.signWith? z d nonce = some sig := by
  induction k generalizing stream with
  | zero =>
    -- the stream is used up, and the neighbours of its last value are tried
    unfold signFrom?
    cases hfind : (List.range 10).findSome? fun i =>
        D.signWith? z d (residue n (stream.number + i)) with
    | none =>
      rcases D.exists_signWith?_residue hp hpn hn z hd stream.number with ⟨i, hi, hsome⟩
      exact absurd (List.findSome?_eq_none_iff.1 hfind i (List.mem_range.2 hi)) hsome
    | some sig =>
      rcases List.exists_of_findSome?_eq_some hfind with ⟨i, -, hi⟩
      exact ⟨_, sig, rfl, hi⟩
  | succ k ih =>
    unfold signFrom?
    cases hfirst : (if h : stream.number < n then D.signWith? z d ⟨stream.number, h⟩ else none) with
    | none => exact ih stream.skip
    | some sig =>
      split at hfirst
      · exact ⟨_, sig, rfl, hfirst⟩
      · exact absurd hfirst (by simp)

/-- The signature of the library is the one of some nonce. -/
theorem exists_signWith?_sign (hp : p % 2 = 1) (hpn : p < 2 * n) (hn : 10 ≤ n) (z : Fin n)
    {d : Fin n} (hd : d ≠ 0) : ∃ nonce, D.signWith? z d nonce = some (D.sign z d) := by
  unfold sign
  obtain ⟨nonce, sig, hsig, hnonce⟩ := D.exists_signFrom? hp hpn hn z hd maxNonces
    (NonceStream.start ((BigEndian.encode 32 d.val).toList ++ (BigEndian.encode 32 z.val).toList))
  dsimp only
  rw [hsig]
  exact ⟨nonce, hnonce⟩

end KeyTree.Ecdsa
