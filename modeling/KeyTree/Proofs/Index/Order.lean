import KeyTree.Proofs.Index.Refusal

/-!
# The order of indices

An index is a mark and a number below `2^31`, packed into a word. Since the mark is the top bit, the
order of the words is the lexicographic order of these pairs, in which a normal index stands before
every hardened one.

* `existsUnique_index`: each mark and each number below `2^31` make one index.
* `le_iff_toLex_le`: the order of the words is that of the pairs.
* `sorted_iff`: a list in ascending order is its normal indices in ascending order, followed by its
  hardened ones in ascending order.
* `encoding_bijective`: words, pairs, order and text together.
-/

namespace KeyTree.Index

/-! ## Words and pairs -/

/-- The mark and the number tell an index. -/
theorem ext_parts {i j : Index} (hmark : i.isHardened = j.isHardened)
    (hnumber : i.number.toNat = j.number.toNat) : i = j := by
  apply ext_toNat
  cases hj : j.isHardened with
  | false =>
    rw [toNat_value_of_normal hj, toNat_value_of_normal (hmark.trans hj), hnumber]
  | true =>
    rw [toNat_value_of_hardened hj, toNat_value_of_hardened (hmark.trans hj), hnumber]

/-- The normal index of a number has this number, and no mark. -/
theorem exists_normal {n : UInt32} (h : n.toNat < 2 ^ 31) :
    ∃ i, normal n = .ok i ∧ i.isHardened = false ∧ i.number = n ∧ i.value.toNat = n.toNat := by
  have hmark : (⟨n⟩ : Index).isHardened = false := isHardened_eq_false_iff.2 h
  refine ⟨⟨n⟩, normal_eq_ok_iff.2 ⟨h, rfl⟩, hmark, ?_, rfl⟩
  exact UInt32.toNat_inj.1 (toNat_value_of_normal hmark).symm

/-- The hardened index of a number has this number, and the mark. -/
theorem exists_hardened {n : UInt32} (h : n.toNat < 2 ^ 31) :
    ∃ i, hardened n = .ok i ∧ i.isHardened = true ∧ i.number = n ∧
      i.value.toNat = n.toNat + 2 ^ 31 := by
  have hvalue := toNat_add_hardenedBit h
  have hmark : (⟨n + hardenedBit⟩ : Index).isHardened = true := by
    rw [isHardened_iff]
    dsimp only
    omega
  refine ⟨⟨n + hardenedBit⟩, hardened_eq_ok_iff.2 ⟨h, hvalue⟩, hmark, ?_, hvalue⟩
  apply UInt32.toNat_inj.1
  have hparts := toNat_value_of_hardened hmark
  dsimp only at hparts
  omega

/-- Each mark and each number below `2^31` make one index. -/
theorem existsUnique_index (mark : Bool) {n : ℕ} (h : n < 2 ^ 31) :
    ∃! i : Index, i.isHardened = mark ∧ i.number.toNat = n := by
  have hn : (UInt32.ofNat n).toNat = n := UInt32.toNat_ofNat_of_lt' (lt_trans h (by decide))
  have hlt : (UInt32.ofNat n).toNat < 2 ^ 31 := by omega
  have hexists : ∃ i : Index, i.isHardened = mark ∧ i.number = UInt32.ofNat n := by
    cases mark with
    | false =>
      rcases exists_normal hlt with ⟨i, -, hmark, hnumber, -⟩
      exact ⟨i, hmark, hnumber⟩
    | true =>
      rcases exists_hardened hlt with ⟨i, -, hmark, hnumber, -⟩
      exact ⟨i, hmark, hnumber⟩
  rcases hexists with ⟨i, hmark, hnumber⟩
  refine ⟨i, ⟨hmark, by rw [hnumber, hn]⟩, ?_⟩
  rintro j ⟨hjmark, hjnumber⟩
  exact ext_parts (hjmark.trans hmark.symm) (by rw [hjnumber, hnumber, hn])

/-- An index is the normal index of its number as long as it has no mark. -/
theorem normal_number_iff (i : Index) : normal i.number = .ok i ↔ i.isHardened = false := by
  rw [normal_eq_ok_iff, and_iff_right i.toNat_number_lt]
  constructor
  · intro h
    rw [isHardened_eq_false_iff, h]
    exact i.toNat_number_lt
  · exact toNat_value_of_normal

/-- An index is the hardened index of its number as soon as it has the mark. -/
theorem hardened_number_iff (i : Index) : hardened i.number = .ok i ↔ i.isHardened = true := by
  rw [hardened_eq_ok_iff, and_iff_right i.toNat_number_lt]
  constructor
  · intro h
    rw [isHardened_iff]
    omega
  · exact toNat_value_of_hardened

/-! ## Comparing two indices -/

theorem le_iff_toNat_le {i j : Index} : i ≤ j ↔ i.value.toNat ≤ j.value.toNat :=
  UInt32.le_iff_toNat_le

/-- Normal indices come before hardened ones. -/
theorem le_of_normal_of_hardened {i j : Index} (hi : i.isHardened = false)
    (hj : j.isHardened = true) : i ≤ j := by
  rw [isHardened_eq_false_iff] at hi
  rw [isHardened_iff] at hj
  rw [le_iff_toNat_le]
  omega

/-- Nothing hardened comes before a normal index. -/
theorem normal_of_le {i j : Index} (h : i ≤ j) (hj : j.isHardened = false) :
    i.isHardened = false := by
  rw [isHardened_eq_false_iff] at hj ⊢
  exact lt_of_le_of_lt (le_iff_toNat_le.1 h) hj

/-- Indices of one kind are compared by their numbers. -/
theorem le_iff_number_le {i j : Index} (h : i.isHardened = j.isHardened) :
    i ≤ j ↔ i.number ≤ j.number := by
  rw [le_iff_toNat_le, UInt32.le_iff_toNat_le]
  cases hj : j.isHardened with
  | false => rw [toNat_value_of_normal hj, toNat_value_of_normal (h.trans hj)]
  | true =>
    rw [toNat_value_of_hardened hj, toNat_value_of_hardened (h.trans hj), Nat.add_le_add_iff_right]

/-- The order of the words is the lexicographic order of mark and number. -/
theorem le_iff_toLex_le {i j : Index} :
    i ≤ j ↔ toLex (i.isHardened, i.number.toNat) ≤ toLex (j.isHardened, j.number.toNat) := by
  rw [Prod.Lex.toLex_le_toLex]
  dsimp only
  cases hi : i.isHardened with
  | false =>
    cases hj : j.isHardened with
    | false => simp [le_iff_number_le (hi.trans hj.symm), UInt32.le_iff_toNat_le]
    | true => simp [le_of_normal_of_hardened hi hj]
  | true =>
    cases hj : j.isHardened with
    | false =>
      refine iff_of_false ?_ (by simp)
      intro hle
      rw [normal_of_le hle hj] at hi
      cases hi
    | true => simp [le_iff_number_le (hi.trans hj.symm), UInt32.le_iff_toNat_le]

/-! ## Lists in ascending order -/

/-- The indices without the mark. -/
def normals (is : List Index) : List Index := is.filter fun i => !i.isHardened

/-- The indices with the mark. -/
def hardeneds (is : List Index) : List Index := is.filter Index.isHardened

theorem mem_normals {is : List Index} {i : Index} :
    i ∈ normals is ↔ i ∈ is ∧ i.isHardened = false := by
  simp [normals]

theorem mem_hardeneds {is : List Index} {i : Index} :
    i ∈ hardeneds is ↔ i ∈ is ∧ i.isHardened = true := by
  simp [hardeneds]

/-- In ascending order no normal index stands behind a hardened one. -/
theorem eq_normals_append_hardeneds {is : List Index} (h : is.Pairwise (· ≤ ·)) :
    is = normals is ++ hardeneds is := by
  induction is with
  | nil => rfl
  | cons i is ih =>
    rcases List.pairwise_cons.1 h with ⟨hhead, htail⟩
    cases hi : i.isHardened with
    | false =>
      have hnormals : normals (i :: is) = i :: normals is := by simp [normals, hi]
      have hhardeneds : hardeneds (i :: is) = hardeneds is := by simp [hardeneds, hi]
      rw [hnormals, hhardeneds, List.cons_append, ← ih htail]
    | true =>
      -- all that follows is hardened too
      have hall : ∀ j ∈ i :: is, j.isHardened = true := by
        intro j hj
        rcases List.mem_cons.1 hj with rfl | hj
        · exact hi
        · by_contra hnormal
          rw [Bool.not_eq_true] at hnormal
          rw [normal_of_le (hhead j hj) hnormal] at hi
          cases hi
      have hnormals : normals (i :: is) = [] := by
        rw [List.eq_nil_iff_forall_not_mem]
        intro j hj
        rcases mem_normals.1 hj with ⟨hmem, hnormal⟩
        rw [hall j hmem] at hnormal
        cases hnormal
      have hhardeneds : hardeneds (i :: is) = i :: is := List.filter_eq_self.2 hall
      rw [hnormals, hhardeneds, List.nil_append]

/-- The numbers ascend. -/
def Ascending (is : List Index) : Prop := is.Pairwise fun i j => i.number ≤ j.number

/-- Among indices of one kind the order is that of the numbers. -/
theorem pairwise_le_iff_ascending {is : List Index} {mark : Bool}
    (h : ∀ i ∈ is, i.isHardened = mark) : is.Pairwise (· ≤ ·) ↔ Ascending is := by
  apply List.Pairwise.iff_of_mem
  intro i j hi hj
  exact le_iff_number_le ((h i hi).trans (h j hj).symm)

/-- A list is in ascending order when it is its normal indices by ascending numbers, followed by its
hardened ones by ascending numbers. -/
theorem sorted_iff (is : List Index) :
    is.Pairwise (· ≤ ·) ↔
      is = normals is ++ hardeneds is ∧ Ascending (normals is) ∧ Ascending (hardeneds is) := by
  have hnormals : (normals is).Pairwise (· ≤ ·) ↔ Ascending (normals is) :=
    pairwise_le_iff_ascending fun i hi => (mem_normals.1 hi).2
  have hhardeneds : (hardeneds is).Pairwise (· ≤ ·) ↔ Ascending (hardeneds is) :=
    pairwise_le_iff_ascending fun i hi => (mem_hardeneds.1 hi).2
  rw [← hnormals, ← hhardeneds]
  constructor
  · intro h
    exact ⟨eq_normals_append_hardeneds h, h.filter _, h.filter _⟩
  · rintro ⟨hsplit, hn, hh⟩
    rw [hsplit]
    refine List.pairwise_append.2 ⟨hn, hh, ?_⟩
    intro i hi j hj
    exact le_of_normal_of_hardened (mem_normals.1 hi).2 (mem_hardeneds.1 hj).2

/-- Sorting keeps the indices and puts them in ascending order. -/
theorem sort_spec (is : List Index) : (sort is).Perm is ∧ (sort is).Pairwise (· ≤ ·) := by
  refine ⟨List.mergeSort_perm is _, ?_⟩
  have hsorted : (sort is).Pairwise fun i j => decide (i ≤ j) = true := by
    apply List.pairwise_mergeSort
    · intro i j k hij hjk
      simp only [decide_eq_true_iff, le_iff_toNat_le] at *
      exact le_trans hij hjk
    · intro i j
      simp only [Bool.or_eq_true, decide_eq_true_iff, le_iff_toNat_le]
      exact le_total _ _
  exact hsorted.imp fun h => of_decide_eq_true h

/-! ## The encoding as a whole -/

/-- The text of an index is read as that index. -/
theorem ofChars_render (i : Index) : ofChars i.render.toList = .ok i := by
  unfold render
  rw [String.toList_ofList]
  exact ofChars_of_writes (writes_toChars i)

/-- Words, pairs of a mark and a number below `2^31`, and texts are the same indices, in the same
order. The constructors take the numbers below `2^31` and refuse the others, so that nothing wraps
around; each pair makes one index; each word is the normal or the hardened index of its number, and
the mark says which. The order of the words is the lexicographic one of the pairs, so an ascending
list is its normal indices and then its hardened ones, each by ascending numbers, and sorting gives
such a list. The text of an index is read back, and is that of no other one. -/
theorem encoding_bijective :
    (∀ n : UInt32, n.toNat < 2 ^ 31 →
      (∃ i, normal n = .ok i ∧ i.value.toNat = n.toNat) ∧
      ∃ i, hardened n = .ok i ∧ i.value.toNat = n.toNat + 2 ^ 31) ∧
    (∀ n : UInt32, 2 ^ 31 ≤ n.toNat →
      normal n = .error
        (.invalidIndex ("normal index " ++ Nat.repr n.toNat ++ " must be below 2^31")) ∧
      hardened n = .error
        (.invalidIndex ("hardened index " ++ Nat.repr n.toNat ++ " overflows 32 bits"))) ∧
    (∀ (mark : Bool) (n : ℕ), n < 2 ^ 31 →
      ∃! i : Index, i.isHardened = mark ∧ i.number.toNat = n) ∧
    (∀ v : UInt32, (normal (number ⟨v⟩) = .ok ⟨v⟩ ↔ isHardened ⟨v⟩ = false) ∧
      (hardened (number ⟨v⟩) = .ok ⟨v⟩ ↔ isHardened ⟨v⟩ = true)) ∧
    (∀ i j : Index,
      i ≤ j ↔ toLex (i.isHardened, i.number.toNat) ≤ toLex (j.isHardened, j.number.toNat)) ∧
    (∀ is : List Index, is.Pairwise (· ≤ ·) ↔
      is = normals is ++ hardeneds is ∧ Ascending (normals is) ∧ Ascending (hardeneds is)) ∧
    (∀ is : List Index, (sort is).Perm is ∧ (sort is).Pairwise (· ≤ ·)) ∧
    (∀ i : Index, ofChars i.render.toList = .ok i) ∧
    Function.Injective render := by
  refine ⟨?_, ?_, ?_, ?_, ?_, sorted_iff, sort_spec, ofChars_render, ?_⟩
  · intro n h
    rcases exists_normal h with ⟨i, hi, -, -, hvalue⟩
    rcases exists_hardened h with ⟨j, hj, -, -, hvalue'⟩
    exact ⟨⟨i, hi, hvalue⟩, j, hj, hvalue'⟩
  · intro n h
    exact ⟨normal_eq_error_iff.2 ⟨h, rfl⟩, hardened_eq_error_iff.2 ⟨h, rfl⟩⟩
  · intro mark n h
    exact existsUnique_index mark h
  · intro v
    exact ⟨normal_number_iff ⟨v⟩, hardened_number_iff ⟨v⟩⟩
  · intro i j
    exact le_iff_toLex_le
  · intro i j h
    have hread := ofChars_render i
    rw [h, ofChars_render, Except.ok.injEq] at hread
    exact hread.symm

/-- The largest numbers that are taken, the least that is not, and an ascending list across the
border. -/
theorem encoding_bijective_border :
    (∃ i, normal 0x7fffffff = .ok i ∧ i.value.toNat = 0x7fffffff) ∧
    (∃ i, hardened 0x7fffffff = .ok i ∧ i.value.toNat = 0xffffffff) ∧
    normal 0x80000000 = .error (.invalidIndex "normal index 2147483648 must be below 2^31") ∧
    hardened 0x80000000 = .error (.invalidIndex "hardened index 2147483648 overflows 32 bits") ∧
    Ascending (normals [⟨7⟩, ⟨0x7fffffff⟩, ⟨0x80000000⟩]) := by
  rcases encoding_bijective with ⟨htaken, hrefused, -, -, -, hsorted, -⟩
  rcases htaken 0x7fffffff (by decide) with ⟨hnormal, hhardened⟩
  rcases hrefused 0x80000000 (by decide) with ⟨hnormal', hhardened'⟩
  exact ⟨hnormal, hhardened, hnormal', hhardened', ((hsorted _).1 (by decide)).2.1⟩

end KeyTree.Index
