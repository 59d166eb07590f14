import Reel.Library.Bytes

/-!
Numbers of 64 bits written seven bits a byte, low bits first, every byte but the last with its high
bit set, and signed differences folded onto them so that small ones of either sign stay small. A
number is read at an absolute position of a buffer.
-/

set_option autoImplicit false

namespace Varint
open Bytes

def maxBytes : Nat := 10

def putFrom : Nat → Nat → Str
  | 0, _ => []
  | n + 1, value =>
    if value < 128 then [Fin.ofNat 256 value]
    else Fin.ofNat 256 (value % 128 + 128) :: putFrom n (value / 128)

def put (value : Nat) : Str := putFrom maxBytes value

/-- Why no number stands at a position: the buffer ends inside it, or its last byte is missing. -/
inductive Unread where
  | truncated
  | overlong
  deriving DecidableEq, Repr

/-- Read at most `n` groups on from a position, the groups before them giving the low `shift` bits. -/
def getFrom (bytes : Str) : Nat → Nat → Nat → Nat → Except Unread (Nat × Nat)
  | 0, _, _, _ => .error .overlong
  | n + 1, shift, value, pos =>
    match bytes[pos]? with
    | none => .error .truncated
    | some byte =>
      let value := value ||| (byte.val % 128) <<< shift % 2 ^ 64
      if byte.val < 128 then .ok (value, pos + 1) else getFrom bytes n (shift + 7) value (pos + 1)

def get (bytes : Str) (pos : Nat) : Except Unread (Nat × Nat) := getFrom bytes maxBytes 0 0 pos

theorem put_length_pos (value : Nat) : 0 < (put value).length := by
  rw [put, maxBytes, putFrom]
  split <;> simp

theorem join_group {value : Nat} (hvalue : value < 2 ^ 64) (shift : Nat) :
    value % 2 ^ shift ||| (value / 2 ^ shift % 128) <<< shift % 2 ^ 64 = value % 2 ^ (shift + 7) := by
  have hlow : value % 2 ^ shift < 2 ^ shift := Nat.mod_lt value (Nat.two_pow_pos shift)
  have hsum : value % 2 ^ shift + 2 ^ shift * (value / 2 ^ shift % 128) = value % 2 ^ (shift + 7) := by
    rw [Nat.pow_add, Nat.mod_mul]
  have hle : value % 2 ^ (shift + 7) ≤ value := Nat.mod_le _ _
  have hfits : (value / 2 ^ shift % 128) <<< shift % 2 ^ 64 = 2 ^ shift * (value / 2 ^ shift % 128) := by
    rw [Nat.shiftLeft_eq, Nat.mul_comm]
    exact Nat.mod_eq_of_lt (by omega)
  rw [hfits, Nat.or_comm, ← Nat.two_pow_add_eq_or_of_lt hlow, Nat.add_comm, hsum]

theorem getElem?_of_drop {bytes rest : Str} {pos : Nat} {byte : Byte} (h : bytes.drop pos = byte :: rest) :
    bytes[pos]? = some byte ∧ bytes.drop (pos + 1) = rest := by
  have hhead : (bytes.drop pos)[0]? = bytes[pos + 0]? := List.getElem?_drop
  have htail : (bytes.drop pos).drop 1 = bytes.drop (pos + 1) := List.drop_drop
  rw [h] at hhead htail
  exact ⟨by simpa using hhead.symm, by simpa using htail.symm⟩

theorem div_pow_succ (value shift : Nat) : value / 2 ^ (shift + 7) = value / 2 ^ shift / 128 := by
  rw [Nat.pow_add, Nat.div_div_eq_div_mul]

theorem getFrom_last {bytes : Str} {n shift value pos : Nat} (hvalue : value < 2 ^ 64)
    (hlast : value / 2 ^ shift < 128) (h : bytes[pos]? = some (Fin.ofNat 256 (value / 2 ^ shift))) :
    getFrom bytes (n + 1) shift (value % 2 ^ shift) pos = .ok (value, pos + 1) := by
  have hbyte : (Fin.ofNat 256 (value / 2 ^ shift)).val = value / 2 ^ shift :=
    Nat.mod_eq_of_lt (by omega)
  have hwhole : value % 2 ^ (shift + 7) = value := by
    have hdiv : value / 2 ^ (shift + 7) = 0 := by rw [div_pow_succ]; omega
    have hsplit := Nat.div_add_mod value (2 ^ (shift + 7))
    rwa [hdiv, Nat.mul_zero, Nat.zero_add] at hsplit
  simp only [getFrom, h, hbyte, if_pos hlast, join_group hvalue, hwhole]

theorem getFrom_putFrom {bytes rest : Str} {n shift value pos : Nat} (hvalue : value < 2 ^ 64)
    (hroom : value / 2 ^ shift < 128 ^ (n + 1))
    (h : bytes.drop pos = putFrom (n + 1) (value / 2 ^ shift) ++ rest) :
    getFrom bytes (n + 1) shift (value % 2 ^ shift) pos =
      .ok (value, pos + (putFrom (n + 1) (value / 2 ^ shift)).length) := by
  induction n generalizing shift pos with
  | zero =>
    have hlast : value / 2 ^ shift < 128 := by simpa using hroom
    rw [putFrom, if_pos hlast] at h ⊢
    exact getFrom_last hvalue hlast (getElem?_of_drop h).1
  | succ n ih =>
    by_cases hlast : value / 2 ^ shift < 128
    · rw [putFrom, if_pos hlast] at h ⊢
      exact getFrom_last hvalue hlast (getElem?_of_drop h).1
    · rw [putFrom, if_neg hlast] at h ⊢
      obtain ⟨hhead, htail⟩ := getElem?_of_drop h
      have hbyte : (Fin.ofNat 256 (value / 2 ^ shift % 128 + 128)).val = value / 2 ^ shift % 128 + 128 :=
        Nat.mod_eq_of_lt (by omega)
      have hgroup : (value / 2 ^ shift % 128 + 128) % 128 = value / 2 ^ shift % 128 := by omega
      have hmore : ¬ value / 2 ^ shift % 128 + 128 < 128 := by omega
      have hrest : value / 2 ^ (shift + 7) < 128 ^ (n + 1) := by
        rw [div_pow_succ]
        exact Nat.div_lt_of_lt_mul (by rwa [Nat.mul_comm, ← Nat.pow_succ])
      rw [← div_pow_succ] at htail ⊢
      rw [getFrom, hhead]
      simp only [hbyte, hgroup, if_neg hmore, join_group hvalue]
      rw [ih hrest htail, List.length_cons]
      congr 2
      omega

theorem get_put {bytes rest : Str} {value pos : Nat} (hvalue : value < 2 ^ 64)
    (h : bytes.drop pos = put value ++ rest) : get bytes pos = .ok (value, pos + (put value).length) := by
  have hread := @getFrom_putFrom bytes rest 9 0 value pos hvalue
  simp only [Nat.pow_zero, Nat.div_one, Nat.mod_one] at hread
  exact hread (by omega) h

theorem getFrom_bounds {bytes : Str} {n shift value pos out next : Nat} (hvalue : value < 2 ^ 64)
    (h : getFrom bytes n shift value pos = .ok (out, next)) :
    out < 2 ^ 64 ∧ pos < next ∧ next ≤ bytes.length := by
  induction n generalizing shift value pos with
  | zero => cases h
  | succ n ih =>
    rw [getFrom] at h
    cases hbyte : bytes[pos]? with
    | none => simp [hbyte] at h
    | some byte =>
      have hpos : pos < bytes.length := (List.getElem?_eq_some_iff.mp hbyte).1
      have hjoin : value ||| (byte.val % 128) <<< shift % 2 ^ 64 < 2 ^ 64 :=
        Nat.or_lt_two_pow hvalue (Nat.mod_lt _ (Nat.two_pow_pos 64))
      simp only [hbyte] at h
      split at h
      · cases h
        exact ⟨hjoin, by omega, by omega⟩
      · obtain ⟨hout, hlt, hle⟩ := ih hjoin h
        exact ⟨hout, by omega, hle⟩

theorem get_bounds {bytes : Str} {pos value next : Nat} (h : get bytes pos = .ok (value, next)) :
    value < 2 ^ 64 ∧ pos < next ∧ next ≤ bytes.length :=
  getFrom_bounds (Nat.two_pow_pos 64) h

def zigzag (value : Int) : Nat := if 0 ≤ value then 2 * value.toNat else 2 * (-value).toNat - 1

def unzigzag (value : Nat) : Int := if value % 2 = 0 then value / 2 else -(value / 2 : Nat) - 1

theorem unzigzag_zigzag (value : Int) : unzigzag (zigzag value) = value := by
  unfold unzigzag zigzag
  split <;> split <;> omega

theorem zigzag_lt {value : Int} (hlow : -2 ^ 63 ≤ value) (hhigh : value < 2 ^ 63) :
    zigzag value < 2 ^ 64 := by
  unfold zigzag
  split <;> omega

end Varint
