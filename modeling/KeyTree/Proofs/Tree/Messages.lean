import KeyTree.Proofs.Secp256k1.KeyPair
import KeyTree.Proofs.Tree.Verdict

/-!
# The messages that are hashed for children

Under one chain code a child on secp256k1 is told by what is hashed for it. There are three forms of
messages, for a hardened child, for a normal one, and for a candidate behind one that was put aside.
Each of them is a head of 33 bytes and the index in four bytes, and the first byte of the head tells
the form: zero, the tag of a compressed key, and one. So a message tells all that went into it.

* `Form.message_injective`: messages of two forms, or with different arguments, are different.
* `Form.message_separated`: the messages of the derivation are these, and what follows for two
  children.
-/

namespace KeyTree

open Secp256k1 Secp256k1.PrivateKey Node

/-! ## Keys in bytes -/

namespace Secp256k1.PrivateKey

theorem toBytes_injective : Function.Injective toBytes := by
  intro k l h
  have hdecode := decode_toBytes k
  rw [h, decode_toBytes] at hdecode
  exact ext_val hdecode.symm

/-- Different private keys have different public keys. -/
theorem publicKey_injective : Function.Injective publicKey := by
  intro k l h
  rw [publicKey_eq, publicKey_eq, PublicKey.mk.injEq, domain.curve.coords_injective.eq_iff,
    nsmul_basePoint_inj k.scalar.isLt l.scalar.isLt] at h
  exact ext_val h

/-- A private key is told by the compressed form of its public key. -/
theorem compressed_publicKey_injective :
    Function.Injective fun k : PrivateKey => k.publicKey.compressed := by
  intro k l h
  exact publicKey_injective ((PublicKey.compressed_inj k.publicKey_valid l.publicKey_valid).2 h)

/-- The compressed form is a tag for the parity of y and 32 bytes. -/
theorem exists_compressed_publicKey (k : PrivateKey) :
    ∃ tag body, k.publicKey.compressed = tag :: body ∧ body.length = 32 ∧
      (tag = 0x02 ∨ tag = 0x03) := by
  rcases k.publicKey_valid.exists_affine with ⟨x, y, hkey, -⟩
  rw [hkey]
  exact ⟨_, _, rfl, PublicKey.length_coordinateBytes x, PublicKey.parityTag_eq_or_eq y⟩

/-- A compressed form starts with one of its two tags, so with no smaller byte. -/
theorem compressed_ne_cons (k : PrivateKey) {b : UInt8} {body : Bytes} (hb : b < 0x02) :
    k.publicKey.compressed ≠ b :: body := by
  intro h
  rcases k.exists_compressed_publicKey with ⟨tag, rest, hbytes, -, htag⟩
  rw [hbytes] at h
  rw [← (List.cons.inj h).1] at hb
  rcases htag with rfl | rfl
  · exact absurd hb (by decide)
  · exact absurd hb (by decide)

end Secp256k1.PrivateKey

namespace ChildMessage

/-! ## The three forms -/

/-- A message for a child on secp256k1, with all that goes into it. -/
inductive Form where
  | hardened (parent : PrivateKey) (i : Index) (hi : i.isHardened = true)
  | normal (parent : PrivateKey) (i : Index) (hi : i.isHardened = false)
  | retry (right : Vector UInt8 32) (i : Index)

namespace Form

/-- The bytes that are hashed. -/
def message : Form → Bytes
  | .hardened parent i _ => 0x00 :: (parent.toBytes.toList ++ i.toBytes.toList)
  | .normal parent i _ => parent.publicKey.compressed ++ i.toBytes.toList
  | .retry right i => 0x01 :: (right.toList ++ i.toBytes.toList)

/-- The index at the end of the message. -/
def index : Form → Index
  | .hardened _ i _ => i
  | .normal _ i _ => i
  | .retry _ i => i

/-- The bytes in front of the index. -/
def head : Form → Bytes
  | .hardened parent _ _ => 0x00 :: parent.toBytes.toList
  | .normal parent _ _ => parent.publicKey.compressed
  | .retry right _ => 0x01 :: right.toList

theorem message_eq (f : Form) : f.message = f.head ++ f.index.toBytes.toList := by
  cases f with
  | hardened parent i hi => rfl
  | normal parent i hi => rfl
  | retry right i => rfl

/-- Every head has 33 bytes: a byte and a key, or a compressed form. -/
theorem length_head (f : Form) : f.head.length = 33 := by
  cases f with
  | hardened parent i hi => simp [head]
  | normal parent i hi =>
    rcases parent.exists_compressed_publicKey with ⟨tag, body, hbytes, hlength, -⟩
    simp [head, hbytes, hlength]
  | retry right i => simp [head]

theorem length_message (f : Form) : f.message.length = 37 := by
  rw [message_eq, List.length_append, length_head, Vector.length_toList]

/-- The head and the index tell the form and its arguments. -/
theorem eq_of_head_eq {f g : Form} (hhead : f.head = g.head) (hindex : f.index = g.index) :
    f = g := by
  -- heads of two forms differ in their first byte
  cases f with
  | hardened parent i hi =>
    cases g with
    | hardened parent' i' hi' =>
      have hbytes : parent.toBytes = parent'.toBytes := Vector.toList_inj.1 (List.cons.inj hhead).2
      obtain rfl : parent = parent' := toBytes_injective hbytes
      obtain rfl : i = i' := hindex
      rfl
    | normal parent' i' hi' =>
      exact absurd hhead.symm (compressed_ne_cons parent' (by decide))
    | retry right i' => exact absurd (List.cons.inj hhead).1 (by decide)
  | normal parent i hi =>
    cases g with
    | hardened parent' i' hi' =>
      exact absurd hhead (compressed_ne_cons parent (by decide))
    | normal parent' i' hi' =>
      obtain rfl : parent = parent' := compressed_publicKey_injective hhead
      obtain rfl : i = i' := hindex
      rfl
    | retry right i' =>
      exact absurd hhead (compressed_ne_cons parent (by decide))
  | retry right i =>
    cases g with
    | hardened parent' i' hi' => exact absurd (List.cons.inj hhead).1 (by decide)
    | normal parent' i' hi' =>
      exact absurd hhead.symm (compressed_ne_cons parent' (by decide))
    | retry right' i' =>
      obtain rfl : right = right' := Vector.toList_inj.1 (List.cons.inj hhead).2
      obtain rfl : i = i' := hindex
      rfl

/-- A message tells its form and its arguments. -/
theorem message_injective : Function.Injective message := by
  intro f g h
  rw [message_eq, message_eq] at h
  rcases List.append_inj h (by rw [length_head, length_head]) with ⟨hhead, hbytes⟩
  exact eq_of_head_eq hhead (Index.toBytes_injective (Vector.toList_inj.1 hbytes))

/-! ## The messages of the derivation -/

/-- The form of the message for the first candidate of a child. -/
def ofChild (parent : PrivateKey) (i : Index) : Form :=
  if h : i.isHardened = true then .hardened parent i h
  else .normal parent i (Bool.eq_false_iff.2 h)

/-- The message for a child is the one that the derivation hashes first. -/
theorem message_ofChild (parent : PrivateKey) (i : Index) :
    (ofChild parent i).message = first parent i := by
  unfold ofChild first
  by_cases h : i.isHardened = true
  · rw [dif_pos h, if_pos h]
    rfl
  · rw [dif_neg h, if_neg h]
    rfl

/-- A message is for one parent and one index. -/
theorem ofChild_inj {parent parent' : PrivateKey} {i i' : Index}
    (h : ofChild parent i = ofChild parent' i') : parent = parent' ∧ i = i' := by
  unfold ofChild at h
  split at h
  · split at h
    · cases h
      exact ⟨rfl, rfl⟩
    · cases h
  · split at h
    · cases h
    · cases h
      exact ⟨rfl, rfl⟩

/-- A first message is no message for another candidate. -/
theorem ofChild_ne_retry (parent : PrivateKey) (i : Index) (right : Vector UInt8 32) (i' : Index) :
    ofChild parent i ≠ .retry right i' := by
  intro h
  unfold ofChild at h
  split at h
  · cases h
  · cases h

/-- The messages of the derivation on secp256k1 are separated. Each has 37 bytes and tells its form
and its arguments: a hardened child the private key, a normal one the public key, a candidate behind
one that was put aside the right half of that one, and all of them the index. A child is hashed
from such a message, and so is the next candidate. Hence the first candidates of two children, of
one parent or of two, come from different messages, and none of them from that of a later one. -/
theorem message_separated :
    (∀ f : Form, f.message.length = 37) ∧
    (∀ f g : Form, f.message = g.message → f = g) ∧
    (∀ (parent : PrivateKey) (c : Vector UInt8 32) (i : Index),
      child .secp256k1 ⟨parent.toBytes, c⟩ i =
        childFrom parent c i (hmacSha512 c.toList [(ofChild parent i).message])) ∧
    (∀ (parent : PrivateKey) (c : Vector UInt8 32) (i : Index) (I next : Candidate),
      Verdict.child parent c i I = .retry next →
        next = hmacSha512 c.toList [(retry I.right i).message]) ∧
    (∀ (parent parent' : PrivateKey) (i i' : Index),
      (ofChild parent i).message = (ofChild parent' i').message → parent = parent' ∧ i = i') ∧
    ∀ (parent : PrivateKey) (right : Vector UInt8 32) (i i' : Index),
      (ofChild parent i).message ≠ (retry right i').message := by
  refine ⟨length_message, ?_, ?_, ?_, ?_, ?_⟩
  · intro f g h
    exact message_injective h
  · intro parent c i
    rw [message_ofChild]
    exact secp256k1Child_eq parent.decode_toBytes c i
  · intro parent c i I next hnext
    exact (Verdict.child_eq_retry_iff.1 hnext).2
  · intro parent parent' i i' h
    exact ofChild_inj (message_injective h)
  · intro parent right i i' h
    exact ofChild_ne_retry parent i right i' (message_injective h)

/-- A hardened child of the key one, and a candidate that is put aside on the way to a normal
one. -/
theorem message_separated_one :
    hardened ⟨1, by decide⟩ ⟨0x80000000⟩ (by decide) = ofChild ⟨1, by decide⟩ ⟨0x80000000⟩ ∧
    (∃ next, Verdict.child ⟨1, by decide⟩ (Vector.replicate 32 0) ⟨0⟩ (Vector.replicate 64 0xFF) =
        .retry next ∧
      next = hmacSha512 (Vector.replicate 32 0).toList
        [(retry (Candidate.right (Vector.replicate 64 0xFF)) ⟨0⟩).message]) ∧
    (ofChild ⟨1, by decide⟩ ⟨0⟩).message ≠ (ofChild ⟨1, by decide⟩ ⟨0x80000000⟩).message := by
  rcases message_separated with ⟨-, hform, -, hnext, hchild, -⟩
  have hmessage : (hardened ⟨1, by decide⟩ ⟨0x80000000⟩ (by decide)).message =
      (ofChild ⟨1, by decide⟩ ⟨0x80000000⟩).message := rfl
  have hretry : Verdict.child ⟨1, by decide⟩ (Vector.replicate 32 0) ⟨0⟩
      (Vector.replicate 64 0xFF) = .retry _ := Verdict.child_of_not_addable (by decide)
  refine ⟨hform _ _ hmessage, ⟨_, hretry, hnext _ _ _ _ _ hretry⟩, ?_⟩
  intro h
  exact absurd (hchild _ _ _ _ h).2 (by decide)

end Form

end ChildMessage

end KeyTree
