import Rlnc.Combination
import Rlnc.Wire

/-!
What the integrity schemes use of the cryptography libraries: multi-scalar
multiplication, hashing to a group, a pairing check and signatures. Each is a
parameter with its documented law.
-/
namespace Rlnc.Groups
open Rlnc.Combination Rlnc.Wire

/-- `Space::msm` -/
class Space (F G : Type) where
  msm : List G → List F → G

/-- The multi-scalar multiplication of as many points as scalars is the sum of the multiples. -/
class LawfulSpace (F G : Type) [Field F] [AddCommGroup G] [Module F G] [Space F G] : Prop where
  msm_eq : ∀ (points : List G) (scalars : List F), points.length = scalars.length →
    Space.msm points scalars = comb scalars points

/-- `HashToGroup::hash_to_group` -/
class HashToGroup (G : Type) where
  hash_to_group : Bytes → Bytes → G

/-- `e(G1, sigma) = e(pk, p)`, checked by one multi-pairing. -/
class PairingGroup (G1 G2 : Type) where
  generator : G1
  pairing_check : G1 → G2 → G2 → Bool

/-- The check compares the values of a bilinear map. -/
class LawfulPairing (F G1 G2 : Type) [Field F] [AddCommGroup G1] [Module F G1] [AddCommGroup G2] [Module F G2]
    [PairingGroup G1 G2] : Prop where
  bilinear : ∃ (GT : Type) (_ : AddCommGroup GT) (_ : Module F GT) (e : G1 →ₗ[F] G2 →ₗ[F] GT),
    ∀ pk sigma p, PairingGroup.pairing_check pk sigma p = true ↔ e (PairingGroup.generator G2) sigma = e pk p

/-- `Verifier::verify` with a namespace and a message. -/
class Verifier (PublicKey Signature : Type) where
  verify : PublicKey → Bytes → Bytes → Signature → Bool

/-- `Signer` -/
class Signer (S : Type) (PublicKey Signature : outParam Type) where
  public_key : S → PublicKey
  sign : S → Bytes → Bytes → Signature

/-- Signatures verify under the key of their signer. -/
class LawfulSigner (S PublicKey Signature : Type) [Verifier PublicKey Signature] [Signer S PublicKey Signature] :
    Prop where
  verify_sign : ∀ (s : S) (ns msg : Bytes),
    Verifier.verify (Signer.public_key s) ns msg (Signer.sign s ns msg) = true

/-- `u64::to_le_bytes` -/
def to_le_bytes (n : Nat) : Bytes := (to_be 8 n).reverse

/-- A byte string literal. -/
def byte_string (s : String) : Bytes := s.toUTF8.toList

end Rlnc.Groups
