import KeyTree.Proofs.Path.Refusal
import KeyTree.Proofs.Tree.Validity

/-!
# Key pairs from a seed and a text

A text leads to a key pair in three stages: it is read as a path, the path is walked from the root,
and the node at its end is made a key pair. On secp256k1 only the first stage refuses anything,
since all nodes on the way are valid. On ed25519 the walk refuses normal indices, and the rest
cannot fail.

* `descend_ed25519_of_hardened`, `descend_ed25519_of_normal`: the walk on ed25519, by induction on
  the indices.
* `atPath_secp256k1_cases`, `atPath_ed25519_of_hardened`, `atPath_ed25519_of_normal`: what becomes
  of a text that is a path.
* `atPath_errors`: the errors on both curves, and when they occur.
-/

namespace KeyTree

open Secp256k1

namespace Node

/-! ## Ways down on ed25519 -/

/-- The refusal of a normal index on ed25519. -/
def normalRefused : Error := .unsupportedDerivation "Normal keys are not allowed with ed25519"

/-- A hardened index has a child on ed25519, whatever the node. -/
theorem child_ed25519_of_hardened {i : Index} (h : i.isHardened = true) (node : Node) :
    ∃ next, child .ed25519 node i = .ok next :=
  ⟨_, if_pos h⟩

/-- A normal index has no child on ed25519. -/
theorem child_ed25519_of_normal {i : Index} (h : i.isHardened = false) (node : Node) :
    child .ed25519 node i = .error normalRefused := by
  apply if_neg
  rw [h]
  exact Bool.false_ne_true

/-- Hardened indices lead down to a node, by induction on them. -/
theorem descend_ed25519_of_hardened {is : List Index} (h : ∀ i ∈ is, i.isHardened = true)
    (node : Node) : ∃ leaf, node.descend .ed25519 is = .ok leaf := by
  induction is generalizing node with
  | nil => exact ⟨node, descend_nil .ed25519 node⟩
  | cons i is ih =>
    rcases child_ed25519_of_hardened (h i List.mem_cons_self) node with ⟨next, hnext⟩
    rw [descend_cons, hnext, ok_bind]
    exact ih (fun j hj => h j (List.mem_cons_of_mem i hj)) next

/-- The first normal index ends the walk, wherever it stands. -/
theorem descend_ed25519_of_normal {is : List Index} (h : ∃ i ∈ is, i.isHardened = false)
    (node : Node) : node.descend .ed25519 is = .error normalRefused := by
  induction is generalizing node with
  | nil =>
    rcases h with ⟨i, hi, -⟩
    exact absurd hi List.not_mem_nil
  | cons i is ih =>
    rw [descend_cons]
    by_cases hi : i.isHardened = true
    · rcases child_ed25519_of_hardened hi node with ⟨next, hnext⟩
      rw [hnext, ok_bind]
      rcases h with ⟨j, hj, hnormal⟩
      rcases List.mem_cons.1 hj with rfl | hj
      · rw [hi] at hnormal
        exact absurd hnormal (by simp)
      · exact ih ⟨j, hj, hnormal⟩ next
    · rw [child_ed25519_of_normal (Bool.eq_false_iff.2 hi), error_bind]

/-- On ed25519 a derivation takes the hash of the seed as its root, and goes down from there. -/
theorem derive_ed25519_eq (seed : Bytes) (is : List Index) :
    derive .ed25519 seed is =
      (ofCandidate (hmacSha512 (Curve.seedKey .ed25519) [seed])).descend .ed25519 is := by
  unfold derive root
  rw [ok_bind]

end Node

/-! ## Texts -/

section AtPath

variable {text : String} (seed : Bytes)

/-- A text that is no path is refused as the reader refuses it. -/
theorem atPath_secp256k1_of_error {e : Error} (h : Path.parse text = .error e) :
    KeyPair.atPath seed text = .error e := by
  unfold KeyPair.atPath
  rw [h, error_bind]

/-- On ed25519 it is refused in the same way. -/
theorem atPath_ed25519_of_error {e : Error} (h : Path.parse text = .error e) :
    Ed25519.KeyPair.atPath seed text = .error e := by
  unfold Ed25519.KeyPair.atPath
  rw [h, error_bind]

/-- A path leads to the key pair of the node that is derived along it. -/
theorem atPath_secp256k1_of_ok {p : Path} (h : Path.parse text = .ok p) :
    KeyPair.atPath seed text =
      (do let node ← Node.derive .secp256k1 seed p.indices; node.secp256k1KeyPair) := by
  unfold KeyPair.atPath
  rw [h, ok_bind]

/-- On ed25519 every node has a key pair, so that nothing can fail behind the derivation. -/
theorem atPath_ed25519_of_ok {p : Path} (h : Path.parse text = .ok p) :
    Ed25519.KeyPair.atPath seed text =
      (do let node ← Node.derive .ed25519 seed p.indices; return node.ed25519KeyPair) := by
  unfold Ed25519.KeyPair.atPath
  rw [h, ok_bind]

/-- On secp256k1 a path leads to the key pair of its node, unless a loop uses up its attempts. -/
theorem atPath_secp256k1_cases {p : Path} (h : Path.parse text = .ok p) :
    (∃ node pair, Node.derive .secp256k1 seed p.indices = .ok node ∧
      KeyPair.atPath seed text = .ok pair ∧ pair.privateKey.toBytes = node.privateKey) ∨
    ∃ what, (what = "master key" ∨ what = "child key") ∧
      Node.derive .secp256k1 seed p.indices = .error (.notConverged what) ∧
      KeyPair.atPath seed text = .error (.notConverged what) := by
  rw [atPath_secp256k1_of_ok seed h]
  rcases Node.derive_sound seed p.indices with (⟨node, hnode, hvalid⟩ | herror) | herror
  · left
    rcases Node.keyPair_of_valid hvalid with ⟨pair, hpair, hbytes⟩
    refine ⟨node, pair, hnode, ?_, hbytes⟩
    rw [hnode, ok_bind, hpair]
  · right
    refine ⟨"child key", .inr rfl, herror, ?_⟩
    rw [herror, error_bind]
  · right
    refine ⟨"master key", .inl rfl, herror, ?_⟩
    rw [herror, error_bind]

/-- On ed25519 a path of hardened indices leads to a key pair. -/
theorem atPath_ed25519_of_hardened {p : Path} (h : Path.parse text = .ok p)
    (hall : ∀ i ∈ p.indices, i.isHardened = true) :
    ∃ node pair, Node.derive .ed25519 seed p.indices = .ok node ∧
      Ed25519.KeyPair.atPath seed text = .ok pair ∧ pair.secret = node.privateKey := by
  rcases Node.descend_ed25519_of_hardened hall
    (Node.ofCandidate (hmacSha512 (Curve.seedKey .ed25519) [seed])) with ⟨node, hnode⟩
  rw [← Node.derive_ed25519_eq] at hnode
  refine ⟨node, node.ed25519KeyPair, hnode, ?_, rfl⟩
  rw [atPath_ed25519_of_ok seed h, hnode, ok_bind]
  rfl

/-- On ed25519 a path with a normal index is refused for it, wherever it stands. -/
theorem atPath_ed25519_of_normal {p : Path} (h : Path.parse text = .ok p)
    (hnormal : ∃ i ∈ p.indices, i.isHardened = false) :
    Ed25519.KeyPair.atPath seed text = .error Node.normalRefused := by
  rw [atPath_ed25519_of_ok seed h, Node.derive_ed25519_eq, Node.descend_ed25519_of_normal hnormal,
    error_bind]

/-! ## Errors -/

/-- On secp256k1 only the text and the cap are causes of failure. -/
theorem error_of_atPath_secp256k1 {e : Error} (h : KeyPair.atPath seed text = .error e) :
    Path.parse text = .error e ∨ ∃ what, e = .notConverged what := by
  rcases hparse : Path.parse text with e' | p
  · left
    rw [atPath_secp256k1_of_error seed hparse, Except.error.injEq] at h
    rw [h]
  · right
    rcases atPath_secp256k1_cases seed hparse with ⟨node, pair, -, hpair, -⟩ | ⟨what, -, -, herror⟩
    · rw [hpair] at h
      exact absurd h (by simp)
    · rw [herror, Except.error.injEq] at h
      exact ⟨what, h.symm⟩

/-- On ed25519 only the text and a normal index are causes of failure. -/
theorem error_of_atPath_ed25519 {e : Error} (h : Ed25519.KeyPair.atPath seed text = .error e) :
    Path.parse text = .error e ∨ e = Node.normalRefused := by
  rcases hparse : Path.parse text with e' | p
  · left
    rw [atPath_ed25519_of_error seed hparse, Except.error.injEq] at h
    rw [h]
  · right
    by_cases hall : ∀ i ∈ p.indices, i.isHardened = true
    · rcases atPath_ed25519_of_hardened seed hparse hall with ⟨node, pair, -, hpair, -⟩
      rw [hpair] at h
      exact absurd h (by simp)
    · have hnormal : ∃ i ∈ p.indices, i.isHardened = false := by
        simpa using hall
      rw [atPath_ed25519_of_normal seed hparse hnormal, Except.error.injEq] at h
      exact h.symm

/-- The causes of failure on either curve. -/
theorem error_of_atPath {e : Error}
    (h : KeyPair.atPath seed text = .error e ∨ Ed25519.KeyPair.atPath seed text = .error e) :
    e.OfText ∨ (∃ what, e = .notConverged what) ∨ e = Node.normalRefused := by
  rcases h with h | h
  · rcases error_of_atPath_secp256k1 seed h with hparse | hwhat
    · exact .inl (Path.parse_error hparse)
    · exact .inr (.inl hwhat)
  · rcases error_of_atPath_ed25519 seed h with hparse | hnormal
    · exact .inl (Path.parse_error hparse)
    · exact .inr (.inr hnormal)

/-- The errors on the way from a text to a key pair. A text that is no path is refused on both
curves for what the reader finds in it, and on secp256k1 for nothing else. A path leads to the key
pair of its node, except that on secp256k1 a loop may use up its attempts, and that on ed25519 one
normal index, wherever it stands, is refused. No node is refused as a key, and no hash fails. -/
theorem atPath_errors (seed : Bytes) (text : String) :
    (∀ e, Path.parse text = .error e →
      KeyPair.atPath seed text = .error e ∧ Ed25519.KeyPair.atPath seed text = .error e) ∧
    (∀ e, KeyPair.atPath seed text = .error e → (∀ what, e ≠ .notConverged what) →
      Path.parse text = .error e) ∧
    (∀ p, Path.parse text = .ok p →
      ((∃ node pair, Node.derive .secp256k1 seed p.indices = .ok node ∧
          KeyPair.atPath seed text = .ok pair ∧ pair.privateKey.toBytes = node.privateKey) ∨
        ∃ what, (what = "master key" ∨ what = "child key") ∧
          Node.derive .secp256k1 seed p.indices = .error (.notConverged what) ∧
          KeyPair.atPath seed text = .error (.notConverged what)) ∧
      ((∀ i ∈ p.indices, 2 ^ 31 ≤ i.value.toNat) →
        ∃ node pair, Node.derive .ed25519 seed p.indices = .ok node ∧
          Ed25519.KeyPair.atPath seed text = .ok pair ∧ pair.secret = node.privateKey) ∧
      ((∃ i ∈ p.indices, i.value.toNat < 2 ^ 31) →
        Ed25519.KeyPair.atPath seed text =
          .error (.unsupportedDerivation "Normal keys are not allowed with ed25519"))) ∧
    ∀ e, KeyPair.atPath seed text = .error e ∨ Ed25519.KeyPair.atPath seed text = .error e →
      e ≠ .invalidPrivateKey ∧ ∀ detail, e ≠ .keyDerivation detail := by
  refine ⟨?_, ?_, ?_, ?_⟩
  · intro e h
    exact ⟨atPath_secp256k1_of_error seed h, atPath_ed25519_of_error seed h⟩
  · intro e h hconverged
    rcases error_of_atPath_secp256k1 seed h with hparse | ⟨what, hwhat⟩
    · exact hparse
    · exact absurd hwhat (hconverged what)
  · intro p h
    refine ⟨atPath_secp256k1_cases seed h, ?_, ?_⟩
    · intro hall
      apply atPath_ed25519_of_hardened seed h
      intro i hi
      exact Index.isHardened_iff.2 (hall i hi)
    · intro hnormal
      rcases hnormal with ⟨i, hi, hlt⟩
      refine atPath_ed25519_of_normal seed h ⟨i, hi, ?_⟩
      rw [Bool.eq_false_iff, ne_eq, Index.isHardened_iff]
      omega
  · intro e h
    rcases error_of_atPath seed h with htext | ⟨what, rfl⟩ | rfl
    · cases htext with
      | path detail => simp
      | index detail => simp
    · simp
    · simp [Node.normalRefused]

/-- A text with two faults, of which the left one is reported, a path that ends with a normal index,
and a path without one. -/
theorem atPath_errors_normal :
    (KeyPair.atPath [] "m/2147483648/x" =
        .error (.invalidIndex "normal index 2147483648 must be below 2^31") ∧
      Ed25519.KeyPair.atPath [] "m/2147483648/x" =
        .error (.invalidIndex "normal index 2147483648 must be below 2^31")) ∧
    Path.parse "m/2147483648/x" =
      .error (.invalidIndex "normal index 2147483648 must be below 2^31") ∧
    Ed25519.KeyPair.atPath [] "m/0h/7" =
      .error (.unsupportedDerivation "Normal keys are not allowed with ed25519") ∧
    (∃ node pair, Node.derive .ed25519 [] [⟨0x80000000⟩] = .ok node ∧
      Ed25519.KeyPair.atPath [] "m/0h" = .ok pair ∧ pair.secret = node.privateKey) ∧
    Error.unsupportedDerivation "Normal keys are not allowed with ed25519" ≠
      .invalidPrivateKey := by
  rcases atPath_errors [] "m/2147483648/x" with ⟨hrefused, honly, -, -⟩
  have htwo := hrefused (.invalidIndex "normal index 2147483648 must be below 2^31") (by decide)
  rcases atPath_errors [] "m/0h/7" with ⟨-, -, hpath, hnever⟩
  have hnormal := (hpath ⟨[⟨0x80000000⟩, ⟨7⟩]⟩ (by decide)).2.2 ⟨⟨7⟩, by decide, by decide⟩
  have hhardened := ((atPath_errors [] "m/0h").2.2.1 ⟨[⟨0x80000000⟩]⟩ (by decide)).2.1 (by decide)
  exact ⟨htwo, honly _ htwo.1 (by simp), hnormal, hhardened, (hnever _ (.inr hnormal)).1⟩

end AtPath

end KeyTree
