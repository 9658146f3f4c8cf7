import Mathlib.Algebra.Order.Ring.Nat
import Mathlib.Data.List.Sublists
import Mathlib.Data.Set.Function
import Mathlib.Tactic.Common

/-!
# SHA-256

The hash function is a parameter: `Sha256.hex` is the lower-case hexadecimal digest of a sequence
of bytes. That no two of some sequences of bytes collide is a hypothesis wherever it is needed.
-/

namespace Node

/-- The digits of a digest. -/
def hexDigits : List Char := "0123456789abcdef".toList

/-- The string is 64 lower-case hexadecimal digits. -/
def IsDigest (s : String) : Prop := s.toList.length = 64 ∧ ∀ c ∈ s.toList, c ∈ hexDigits

instance (s : String) : Decidable (IsDigest s) := inferInstanceAs (Decidable (_ ∧ _))

/-- SHA-256, as a function to hexadecimal digests. -/
class Sha256 where
  hex : List UInt8 → String
  hex_digest : ∀ bytes, IsDigest (hex bytes)

/-- No two sequences of bytes in `s` have the same digest. -/
def NoCollision [Sha256] (s : Set (List UInt8)) : Prop := Set.InjOn Sha256.hex s

/-- The 64 hexadecimal digits of a number below `2 ^ 256`. -/
def digest (n : Nat) : String :=
  String.ofList ((List.range 64).reverse.map fun i => Nat.digitChar (n / 16 ^ i % 16))

theorem isDigest_digest (n : Nat) :
  IsDigest (digest n)
  := by
  have hdigit : ∀ d < 16, Nat.digitChar d ∈ hexDigits := by decide
  rw [IsDigest, digest, String.toList_ofList]
  constructor
  · simp
  · intro c hc
    obtain ⟨i, -, rfl⟩ := List.mem_map.mp hc
    apply hdigit
    apply Nat.mod_lt
    decide

/-- The function that gives the sequences of bytes in a table their digests there, and any other
sequence the digest zero. -/
@[reducible]
def Sha256.ofTable (table : List (List UInt8 × Nat)) : Sha256 where
  hex bytes := digest ((table.lookup bytes).getD 0)
  hex_digest _ := isDigest_digest _

/-- SHA-256 on a few short sequences of bytes. -/
@[reducible]
def Sha256.short : Sha256 := Sha256.ofTable [
  ([], 0xe3b0c44298fc1c149afbf4c8996fb92427ae41e4649b934ca495991b7852b855),
  ([97], 0xca978112ca1bbdcafac231b39a23dc4da786eff8147c4e72b9807785afee48bb),
  ([98], 0x3e23e8160039594a33894f6564e1b1348bbd7a0088d42c4acb73eeaed59c009d),
  ([97, 98], 0xfb8e20fc2e4c3f248c60c39bd652f3c1347298bb977b8b4d5903b85055620603)]

/-- These do not collide. -/
theorem noCollision_short {s : Set (List UInt8)} (h : ∀ bytes ∈ s, bytes.Sublist [97, 98]) :
  let _ := Sha256.short
  NoCollision s
  := by
  intro _ a ha b hb heq
  have htable : ∀ a ∈ ([97, 98] : List UInt8).sublists, ∀ b ∈ ([97, 98] : List UInt8).sublists,
      Sha256.hex a = Sha256.hex b → a = b := by decide +kernel
  exact htable a (List.mem_sublists.mpr (h a ha)) b (List.mem_sublists.mpr (h b hb)) heq

end Node
