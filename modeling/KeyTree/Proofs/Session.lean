import KeyTree.Proofs.Tree.KeyPairs
import KeyTree.Session

/-!
# Sessions against derivations

A session goes down a tree step by step, and a derivation goes down from the root at once. The two
meet in `InTree`: the node of the session is the one that a derivation finds at its path. A root
establishes it and a child keeps it; a given node and another curve are all that can break it, since
a step that fails changes nothing.

* `walk_iff`: a derivation as a walk from child to child that ends at the first failure.
* `step_moves`: what a step can do to the curve, the node and the path.
* `InTree.step`, `InTree.run`: a session stays in the tree of its last root.
* `exists_child_error_iff`: when a child step is refused.
* `valid_or_stray`: where a node comes from that is no valid one on secp256k1.
-/

namespace KeyTree

/-! ## Walks -/

namespace Node

/-- The outcome of going from child to child: the node at the end, or the first failure. -/
inductive Walk (curve : Curve) : Node → List Index → Except Error Node → Prop
  | stay (node : Node) : Walk curve node [] (.ok node)
  | down {node next : Node} {i : Index} {is : List Index} {outcome : Except Error Node}
      (h : child curve node i = .ok next) (rest : Walk curve next is outcome) :
      Walk curve node (i :: is) outcome
  | stop {node : Node} {i : Index} {is : List Index} {e : Error}
      (h : child curve node i = .error e) : Walk curve node (i :: is) (.error e)

/-- Going down is a walk, by induction on the indices. -/
theorem walk_descend (curve : Curve) (node : Node) (is : List Index) :
    Walk curve node is (node.descend curve is) := by
  induction is generalizing node with
  | nil => exact .stay node
  | cons i is ih =>
    rw [descend_cons]
    rcases hchild : child curve node i with e | next
    · exact .stop hchild
    · exact .down hchild (ih next)

/-- A walk has one outcome, and going down finds it. -/
theorem walk_iff {curve : Curve} {node : Node} {is : List Index} {outcome : Except Error Node} :
    Walk curve node is outcome ↔ node.descend curve is = outcome := by
  constructor
  · intro h
    induction h with
    | stay node => exact descend_nil curve node
    | down h rest ih => rw [descend_cons, h, ok_bind, ih]
    | stop h => rw [descend_cons, h, error_bind]
  · rintro rfl
    exact walk_descend curve node is

/-- To derive along two paths is to derive along the first and go down along the second. -/
theorem derive_append (curve : Curve) (seed : Bytes) (xs ys : List Index) :
    derive curve seed (xs ++ ys) =
      (do let node ← derive curve seed xs; node.descend curve ys) := by
  unfold derive descend
  rcases root curve seed with e | node
  · rfl
  · simp only [ok_bind, List.foldlM_append]

/-! ## Refused children -/

/-- A child is refused on secp256k1 for the key of the parent, and on ed25519 for the index. -/
theorem exists_child_error_iff (curve : Curve) (node : Node) (i : Index) :
    (∃ e, child curve node i = .error e ∧ e ≠ .notConverged "child key") ↔
      (curve = .secp256k1 ∧ ¬node.Valid) ∨ (curve = .ed25519 ∧ i.isHardened = false) := by
  cases curve with
  | secp256k1 =>
    by_cases hnode : node.Valid
    · refine iff_of_false ?_ (by simp [hnode])
      rintro ⟨e, herror, hne⟩
      rcases child_sound hnode i with ⟨next, hnext, -⟩ | hcap
      · rw [hnext] at herror
        exact absurd herror (by simp)
      · rw [hcap, Except.error.injEq] at herror
        exact hne herror.symm
    · refine iff_of_true ⟨.invalidPrivateKey, ?_, by simp⟩ (by simp [hnode])
      exact secp256k1Child_of_not_inRange hnode node.chainCode i
  | ed25519 =>
    by_cases hi : i.isHardened = true
    · refine iff_of_false ?_ (by simp [hi])
      rintro ⟨e, herror, -⟩
      rcases child_ed25519_of_hardened hi node with ⟨next, hnext⟩
      rw [hnext] at herror
      exact absurd herror (by simp)
    · have hnormal := Bool.eq_false_iff.2 hi
      refine iff_of_true ⟨normalRefused, ?_, by simp [normalRefused]⟩ (by simp [hnormal])
      exact child_ed25519_of_normal hnormal node

theorem valid_of_root {seed : Bytes} {node : Node} (h : root .secp256k1 seed = .ok node) :
    node.Valid :=
  (rootFrom_sound (seedHash seed)).valid h

end Node

theorem Curve.eq_or_eq (curve : Curve) : curve = .secp256k1 ∨ curve = .ed25519 := by
  cases curve with
  | secp256k1 => exact .inl rfl
  | ed25519 => exact .inr rfl

namespace Session

open Node

variable {s t : Session} {a : Step}

/-! ## One step -/

/-- The curve, the node and the path are the same. -/
structure SamePlace (s t : Session) : Prop where
  curve_eq : t.curve = s.curve
  node_eq : t.node = s.node
  path_eq : t.path = s.path

theorem SamePlace.refl (s : Session) : SamePlace s s := ⟨rfl, rfl, rfl⟩

theorem samePlace_remember (s : Session) (signature : Bytes) :
    SamePlace s (s.remember signature) := ⟨rfl, rfl, rfl⟩

theorem samePlace_rememberEd (s : Session) (signature : Vector UInt8 64) :
    SamePlace s (s.rememberEd signature) := ⟨rfl, rfl, rfl⟩

/-- What a step can do to the curve, the node and the path. -/
inductive Moves (s : Session) : Step → Session → Prop
  | root {seed : Bytes} {node : Node} (h : Node.root s.curve seed = .ok node) :
      Moves s (.master seed) (s.toRoot node)
  | curve (c : Curve) : Moves s (.curve c) { s with curve := c }
  | child {i : Index} {node : Node} (h : Node.child s.curve s.node i = .ok node) :
      Moves s (.child i) (s.toChild node i)
  | setNode (node : Node) : Moves s (.setNode node) (s.toRoot node)
  | rest {a : Step} {t : Session} (h : SamePlace s t) : Moves s a t

theorem step_of_ok {answer : Answer × Session} (h : s.apply a = .ok answer) :
    s.step a = answer.2 := by
  unfold step
  rw [h]

/-- A step that fails changes nothing. -/
theorem step_of_error {e : Error} (h : s.apply a = .error e) : s.step a = s := by
  unfold step
  rw [h]

/-- What a step that succeeds does to the place: only four steps change it, one constructor each. -/
theorem apply_moves {answer : Answer × Session} (h : s.apply a = .ok answer) :
    Moves s a answer.2 := by
  cases a with
  | master seed =>
    rcases bind_eq_ok h with ⟨node, hnode, hdone⟩
    cases hdone
    exact .root hnode
  | curve c =>
    cases h
    exact .curve c
  | child i =>
    rcases bind_eq_ok h with ⟨node, hnode, hdone⟩
    cases hdone
    exact .child hnode
  | setNode node =>
    cases h
    exact .setNode node
  | rederive seed =>
    rcases bind_eq_ok h with ⟨node, -, hanswer⟩
    cases hanswer
    exact .rest (.refl s)
  | keyPair =>
    rcases bind_eq_ok h with ⟨pair, -, hanswer⟩
    cases hanswer
    exact .rest (.refl s)
  | sign message =>
    rcases bind_eq_ok h with ⟨pair, -, hanswer⟩
    rw [← Except.ok.inj hanswer]
    exact .rest (samePlace_remember s _)
  | verify message =>
    rcases bind_eq_ok h with ⟨pair, -, hanswer⟩
    cases hanswer
    exact .rest (.refl s)
  | edKeyPair =>
    cases h
    exact .rest (.refl s)
  | edSign message =>
    rw [← Except.ok.inj h]
    exact .rest (samePlace_rememberEd s _)
  | edVerify message =>
    rcases hsig : s.edSignature with _ | signature
    · simp only [apply, hsig] at h
      rw [← Except.ok.inj h]
      exact .rest (.refl s)
    · simp only [apply, hsig] at h
      rw [← Except.ok.inj h]
      exact .rest (.refl s)

/-- The same for any step, since one that fails changes nothing. -/
theorem step_moves (s : Session) (a : Step) : Moves s a (s.step a) := by
  rcases h : s.apply a with e | answer
  · rw [step_of_error h]
    exact .rest (.refl s)
  · rw [step_of_ok h]
    exact apply_moves h

/-! ## Any number of steps -/

theorem run_nil (s : Session) : s.run [] = s := rfl

theorem run_cons (s : Session) (a : Step) (steps : List Step) :
    s.run (a :: steps) = (s.step a).run steps := rfl

theorem run_append (s : Session) (before after : List Step) :
    s.run (before ++ after) = (s.run before).run after := by
  unfold run
  rw [List.foldl_append]

theorem run_concat (s : Session) (steps : List Step) (a : Step) :
    s.run (steps ++ [a]) = (s.run steps).step a := by
  rw [run_append, run_cons, run_nil]

/-! ## In the tree of a seed -/

/-- The node of the session is the one that a derivation finds at its path. -/
def InTree (seed : Bytes) (s : Session) : Prop :=
  derive s.curve seed s.path.indices = .ok s.node

/-- At a root the session is in the tree of the seed, with an empty path. -/
theorem inTree_toRoot {seed : Bytes} {node : Node} (h : root s.curve seed = .ok node) :
    (s.toRoot node).InTree seed := by
  show derive s.curve seed [] = .ok node
  unfold derive
  rw [h, ok_bind, descend_nil]

/-- A child step goes one index down, in the tree and in the path. -/
theorem InTree.toChild {seed : Bytes} (hs : s.InTree seed) {i : Index} {node : Node}
    (h : child s.curve s.node i = .ok node) : (s.toChild node i).InTree seed := by
  show derive s.curve seed (s.path.indices ++ [i]) = .ok node
  rw [derive_append, show derive s.curve seed s.path.indices = .ok s.node from hs, ok_bind,
    descend_cons, h, ok_bind, descend_nil]

/-- A session at the same place is in the same tree. -/
theorem InTree.of_samePlace {seed : Bytes} (hs : s.InTree seed) (h : SamePlace s t) :
    t.InTree seed := by
  unfold InTree
  rw [h.curve_eq, h.node_eq, h.path_eq]
  exact hs

/-- The step goes to no root and no given node, and it does not change this curve. -/
def Step.StaysOn (curve : Curve) : Step → Prop
  | .master _ => False
  | .setNode _ => False
  | .curve c => c = curve
  | _ => True

/-- The step leaves the session in its tree, if only because it fails. -/
def Stays (s : Session) (a : Step) : Prop :=
  a.StaysOn s.curve ∨ ∃ e, s.apply a = .error e

/-- Every step of a run leaves the session in its tree. -/
def StaysAlong : Session → List Step → Prop
  | _, [] => True
  | s, a :: steps => s.Stays a ∧ (s.step a).StaysAlong steps

/-- A step that stays leaves the session in its tree, by the cases of `Moves`. -/
theorem InTree.step {seed : Bytes} (hs : s.InTree seed) (h : s.Stays a) :
    (s.step a).InTree seed := by
  rcases h with hstays | ⟨e, herror⟩
  · have hmoves := step_moves s a
    generalize s.step a = t at hmoves
    cases hmoves with
    | root _ => exact absurd hstays id
    | curve c =>
      have hc : c = s.curve := hstays
      rw [hc]
      exact hs
    | child hchild => exact hs.toChild hchild
    | setNode _ => exact absurd hstays id
    | rest hsame => exact hs.of_samePlace hsame
  · rw [step_of_error herror]
    exact hs

/-- So does a run of such steps, by induction on them. -/
theorem InTree.run {seed : Bytes} (hs : s.InTree seed) {steps : List Step}
    (h : s.StaysAlong steps) : (s.run steps).InTree seed := by
  induction steps generalizing s with
  | nil => exact hs
  | cons a steps ih =>
    rcases h with ⟨hfirst, hrest⟩
    exact ih (hs.step hfirst) hrest

/-- A session starts in the tree of its seed. -/
theorem inTree_of_start {curve : Curve} {seed : Bytes} (h : start curve seed = .ok s) :
    s.InTree seed := by
  rcases bind_eq_ok h with ⟨node, hnode, hs⟩
  cases hs
  show derive curve seed [] = .ok node
  unfold derive
  rw [hnode, ok_bind, descend_nil]

/-! ## Child steps -/

theorem apply_child (s : Session) (i : Index) :
    s.apply (.child i) =
      (do let node ← child s.curve s.node i; return (.done, s.toChild node i)) := rfl

/-- A child step fails exactly as the derivation of the child does. -/
theorem apply_child_eq_error_iff {i : Index} {e : Error} :
    s.apply (.child i) = .error e ↔ child s.curve s.node i = .error e := by
  rw [apply_child]
  rcases child s.curve s.node i with e' | node
  · rw [error_bind]
    simp
  · rw [ok_bind]
    exact iff_of_false (by simp [pure, Except.pure]) (by simp)

/-! ## Where nodes come from -/

/-- The step takes the session to a root or to a child. -/
def Step.Grows : Step → Prop
  | .master _ => True
  | .child _ => True
  | _ => False

/-- The node was given to the session, or the session came to it on ed25519. -/
inductive Stray (s : Session) : List Step → Node → Prop
  | start {steps : List Step} (h : s.curve = .ed25519) : Stray s steps s.node
  | given {steps : List Step} {node : Node} (h : .setNode node ∈ steps) : Stray s steps node
  | grown {before after : List Step} {a : Step} {answer : Answer × Session} (ha : a.Grows)
      (hcurve : (s.run before).curve = .ed25519) (h : (s.run before).apply a = .ok answer) :
      Stray s (before ++ a :: after) answer.2.node

/-- What was stray stays so after one more step. -/
theorem Stray.concat {steps : List Step} {node : Node} (h : Stray s steps node) (a : Step) :
    Stray s (steps ++ [a]) node := by
  cases h with
  | start h => exact .start h
  | given h => exact .given (List.mem_append_left [a] h)
  | grown ha hcurve h =>
    rw [List.append_assoc, List.cons_append]
    exact .grown ha hcurve h

/-- The node is valid on secp256k1 unless it was given or grown on ed25519. -/
theorem valid_or_stray (hs : s.node.Valid ∨ s.curve = .ed25519) (steps : List Step) :
    (s.run steps).node.Valid ∨ Stray s steps (s.run steps).node := by
  -- the last step is taken off, since where it leads depends on those before it
  induction steps using List.reverseRecOn with
  | nil =>
    rcases hs with hvalid | hcurve
    · exact .inl hvalid
    · exact .inr (.start hcurve)
  | append_singleton steps a ih =>
    have hsame : (s.run steps).node.Valid ∨ Stray s (steps ++ [a]) (s.run steps).node := by
      rcases ih with hvalid | hstray
      · exact .inl hvalid
      · exact .inr (hstray.concat a)
    rw [run_concat]
    rcases happly : (s.run steps).apply a with e | ⟨answer, t⟩
    · rw [step_of_error happly]
      exact hsame
    · rw [step_of_ok happly]
      cases apply_moves happly with
      | root hroot =>
        rcases Curve.eq_or_eq (s.run steps).curve with hcurve | hcurve
        · rw [hcurve] at hroot
          exact .inl (valid_of_root hroot)
        · exact .inr (.grown trivial hcurve happly)
      | curve _ => exact hsame
      | child hchild =>
        rcases Curve.eq_or_eq (s.run steps).curve with hcurve | hcurve
        · rw [hcurve] at hchild
          exact .inl (valid_of_child hchild)
        · exact .inr (.grown trivial hcurve happly)
      | setNode node =>
        exact .inr (.given (List.mem_append_right steps (List.mem_singleton_self _)))
      | rest h =>
        dsimp only
        rw [h.node_eq]
        exact hsame

/-- A session starts at a valid node, unless it starts on ed25519. -/
theorem valid_or_curve_of_start {curve : Curve} {seed : Bytes} (h : start curve seed = .ok s) :
    s.node.Valid ∨ s.curve = .ed25519 := by
  rcases bind_eq_ok h with ⟨node, hnode, hs⟩
  cases hs
  cases curve with
  | secp256k1 => exact .inl (valid_of_root hnode)
  | ed25519 => exact .inr rfl

/-! ## Runs -/

/-- A session that begins at a root, after any steps. As long as no step leaves the tree, the node
is the one that a derivation finds at the path of the session in the tree of the first seed, and
behind a later root it is found in the tree of that seed. A step that fails changes nothing. A child
step is refused for a node that is not valid on secp256k1 and for a normal index on ed25519, and
else it can only use up its attempts; a node that is not valid was given, or comes from ed25519. A
derivation along two lists is one along the first, and a walk along the second. -/
theorem run_inTree {curve : Curve} {seed : Bytes} (hstart : start curve seed = .ok s)
    (steps : List Step) :
    (s.StaysAlong steps →
      derive (s.run steps).curve seed (s.run steps).path.indices = .ok (s.run steps).node) ∧
    (∀ before seed' after answer, steps = before ++ .master seed' :: after →
      (s.run before).apply (.master seed') = .ok answer → answer.2.StaysAlong after →
      derive (s.run steps).curve seed' (s.run steps).path.indices = .ok (s.run steps).node) ∧
    (∀ a e, (s.run steps).apply a = .error e → (s.run steps).step a = s.run steps) ∧
    (∀ i, (∃ e, (s.run steps).apply (.child i) = .error e ∧ e ≠ .notConverged "child key") ↔
      ((s.run steps).curve = .secp256k1 ∧
        ¬(1 ≤ BigEndian.decode (s.run steps).node.privateKey.toList ∧
          BigEndian.decode (s.run steps).node.privateKey.toList < Secp256k1.order)) ∨
      ((s.run steps).curve = .ed25519 ∧ i.value.toNat < 2 ^ 31)) ∧
    (¬(1 ≤ BigEndian.decode (s.run steps).node.privateKey.toList ∧
        BigEndian.decode (s.run steps).node.privateKey.toList < Secp256k1.order) →
      Stray s steps (s.run steps).node) ∧
    ∀ (curve : Curve) (seed : Bytes) (xs ys : List Index),
      (∀ e, derive curve seed xs = .error e → derive curve seed (xs ++ ys) = .error e) ∧
      ∀ node, derive curve seed xs = .ok node →
        ∀ outcome, derive curve seed (xs ++ ys) = outcome ↔ Walk curve node ys outcome := by
  refine ⟨?_, ?_, ?_, ?_, ?_, ?_⟩
  · intro hstays
    exact (inTree_of_start hstart).run hstays
  · rintro before seed' after answer rfl hanswer hstays
    rcases bind_eq_ok hanswer with ⟨node, hnode, hdone⟩
    cases hdone
    rw [run_append, run_cons, step_of_ok hanswer]
    exact (inTree_toRoot hnode).run hstays
  · intro a e herror
    exact step_of_error herror
  · intro i
    simp only [apply_child_eq_error_iff, exists_child_error_iff, Index.isHardened_eq_false_iff]
    rfl
  · intro hnode
    rcases valid_or_stray (valid_or_curve_of_start hstart) steps with hvalid | hstray
    · exact absurd hvalid hnode
    · exact hstray
  · intro curve seed xs ys
    rw [derive_append]
    constructor
    · intro e herror
      rw [herror, error_bind]
    · intro node hnode outcome
      rw [hnode, ok_bind, walk_iff]

/-- On ed25519: a child and one that is refused, a root behind a given node, a step that fails, the
node of zeros, and a derivation along a list that cannot be walked. -/
theorem run_inTree_ed25519 :
    ∃ s, start .ed25519 [] = .ok s ∧
      (∃ node, derive .ed25519 [] [⟨0x80000000⟩] = .ok node ∧
        s.run [.child ⟨0x80000000⟩, .child ⟨7⟩] = s.toChild node ⟨0x80000000⟩) ∧
      (∃ node, derive .ed25519 [1] [] = .ok node ∧
        s.run [.setNode ⟨Vector.replicate 32 0, Vector.replicate 32 0⟩, .master [1]] =
          s.toRoot node) ∧
      (s.run []).step (.child ⟨7⟩) = s ∧
      Stray s [.setNode ⟨Vector.replicate 32 0, Vector.replicate 32 0⟩]
        ⟨Vector.replicate 32 0, Vector.replicate 32 0⟩ ∧
      derive .ed25519 [] [⟨7⟩, ⟨0x80000000⟩] = .error normalRefused := by
  have hstart : start .ed25519 [] =
      .ok ⟨.ed25519, .ofCandidate (hmacSha512 (Curve.seedKey .ed25519) [[]]), .master, [], none⟩ :=
    rfl
  refine ⟨_, hstart, ?_, ?_, ?_, ?_, ?_⟩
  · rcases run_inTree hstart [.child ⟨0x80000000⟩, .child ⟨7⟩] with ⟨hfirst, -⟩
    exact ⟨_, hfirst ⟨.inl trivial, .inl trivial, trivial⟩, rfl⟩
  · rcases run_inTree hstart
      [.setNode ⟨Vector.replicate 32 0, Vector.replicate 32 0⟩, .master [1]] with ⟨-, hroot, -⟩
    exact ⟨_, hroot [_] [1] [] _ rfl rfl trivial, rfl⟩
  · exact (run_inTree hstart []).2.2.1 _ normalRefused rfl
  · exact (run_inTree hstart _).2.2.2.2.1 (by decide)
  · exact ((run_inTree hstart []).2.2.2.2.2 .ed25519 [] [⟨7⟩] [⟨0x80000000⟩]).1 normalRefused rfl

end Session

end KeyTree
