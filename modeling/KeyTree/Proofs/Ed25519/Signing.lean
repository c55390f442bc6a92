import KeyTree.Proofs.Ed25519.Group
import KeyTree.Proofs.Eddsa.Equation
import KeyTree.Proofs.Tree.KeyPairs

/-!
# Signing with ed25519 key pairs

A key pair verifies what it signs, for all secrets and messages. So does the pair at a path of
hardened indices, since on this curve every node is one of a key pair.

* `verify_sign_ofSecret`: a pair accepts its own signatures.
* `verify_sign_atPath`: from a seed and a text to an accepted signature.
-/

namespace KeyTree.Ed25519

noncomputable instance baseOrder : domain.BaseOrder where
  generator := basePoint
  coords_generator := coords_basePoint
  order_nsmul := order_nsmul_basePoint

namespace KeyPair

/-- A key pair takes every signature that it gives. -/
theorem verify_sign_ofSecret (secret : Vector UInt8 32) (message : Bytes) :
    (ofSecret secret).verify message ((ofSecret secret).sign message) = true :=
  domain.verify_sign_publicPoint (by decide) (Eddsa.Secret.ofBytes secret) message

/-- Each pair is the one of its secret. -/
theorem eq_ofSecret (pair : KeyPair) : pair = ofSecret pair.secret := by
  rcases pair with ⟨secret, _, rfl⟩
  rfl

/-- A key pair accepts the signatures that it makes, for every secret and every message. A text that
is a path of hardened indices leads from every seed to such a pair, whose secret is the private key
of the node at the path. -/
theorem verify_sign_atPath :
    (∀ (secret : Vector UInt8 32) (message : Bytes),
      (ofSecret secret).verify message ((ofSecret secret).sign message) = true) ∧
    ∀ (seed : Bytes) (text : String) (p : Path), Path.parse text = .ok p →
      (∀ i ∈ p.indices, 2 ^ 31 ≤ i.value.toNat) →
      ∃ node pair, Node.derive .ed25519 seed p.indices = .ok node ∧
        atPath seed text = .ok pair ∧ pair.secret = node.privateKey ∧
        ∀ message, pair.verify message (pair.sign message) = true := by
  refine ⟨verify_sign_ofSecret, ?_⟩
  intro seed text p hparse hall
  have hhardened : ∀ i ∈ p.indices, i.isHardened = true := by
    intro i hi
    exact Index.isHardened_iff.2 (hall i hi)
  rcases atPath_ed25519_of_hardened seed hparse hhardened with ⟨node, pair, hnode, hpair, hsecret⟩
  refine ⟨node, pair, hnode, hpair, hsecret, ?_⟩
  intro message
  rw [pair.eq_ofSecret]
  exact verify_sign_ofSecret pair.secret message

/-- With an empty seed, at the root and at a path of two hardened indices. -/
theorem verify_sign_atPath_hardened :
    (∃ node pair, Node.derive .ed25519 [] [] = .ok node ∧ atPath [] "m" = .ok pair ∧
      pair.secret = node.privateKey ∧
      ∀ message, pair.verify message (pair.sign message) = true) ∧
    ∃ node pair, Node.derive .ed25519 [] [⟨0x8000002c⟩, ⟨0xffffffff⟩] = .ok node ∧
      atPath [] "m/44'/2147483647h" = .ok pair ∧ pair.secret = node.privateKey ∧
      ∀ message, pair.verify message (pair.sign message) = true := by
  rcases verify_sign_atPath with ⟨-, hpath⟩
  exact ⟨hpath [] "m" ⟨[]⟩ (by decide) (by decide),
    hpath [] "m/44'/2147483647h" ⟨[⟨0x8000002c⟩, ⟨0xffffffff⟩]⟩ (by decide) (by decide)⟩

end KeyPair

end KeyTree.Ed25519
