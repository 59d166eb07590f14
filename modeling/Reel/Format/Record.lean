import Reel.Format.Key

/-!
How a segment frames its records: a header and the key ahead of the payload, or for a small record of
a keyless segment a short front and no key.
-/

set_option autoImplicit false

namespace Reel

inductive RecordLayout where
  | keyed
  | keyless
  deriving DecidableEq, Repr

def headerLen : Nat := 21
def keylessPrefix : Nat := 10
def keylessMax : Nat := 4096

def RecordLayout.prefixLen : RecordLayout → Nat → Nat → Nat
  | .keyed, width, _ => headerLen + width
  | .keyless, width, len => if len ≤ keylessMax then keylessPrefix else headerLen + width

def RecordLayout.isKeyless (layout : RecordLayout) (len : Nat) : Bool :=
  layout = .keyless && len ≤ keylessMax

theorem RecordLayout.prefixLen_le (layout : RecordLayout) (width len : Nat) :
    layout.prefixLen width len ≤ headerLen + width := by
  cases layout with
  | keyed => exact le_refl _
  | keyless =>
    simp only [prefixLen, headerLen, keylessPrefix]
    split <;> omega

end Reel
