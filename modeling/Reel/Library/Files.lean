import Reel.Library.Bytes

/-!
Byte files: writes at a position, which reach past the end over zeros, ranges zeroed in place, and what
a read finds after them.
-/

set_option autoImplicit false

namespace Files
open Bytes List

def overwrite (file : Str) (start : Nat) (new : Str) : Str :=
  file.take start ++ replicate (start - file.length) 0 ++ new ++ file.drop (start + new.length)

def punch (file : Str) (start len : Nat) : Str :=
  file.mapIdx fun i b => if start ≤ i ∧ i < start + len then 0 else b

/-- Nothing but zeros from a position on. -/
def ZeroFrom (file : Str) (start : Nat) : Prop := ∀ i b, start ≤ i → file[i]? = some b → b = 0

variable {file : Str} {n : Nat}

theorem le_of_slice {out : Str} {p : Nat} (h : slice file p n = some out) : p + n ≤ file.length := by
  unfold slice at h
  split at h
  · assumption
  · cases h

theorem length_overwrite (file : Str) (start : Nat) (new : Str) :
    (overwrite file start new).length = max file.length (start + new.length) := by
  simp only [overwrite, length_append, length_take, length_replicate, length_drop]
  omega

@[simp] theorem length_punch (file : Str) (start len : Nat) : (punch file start len).length = file.length := by
  simp [punch]

variable {start : Nat}

theorem overwrite_of_le (new : Str) (h : start ≤ file.length) :
    overwrite file start new = file.take start ++ new ++ file.drop (start + new.length) := by
  simp [overwrite, Nat.sub_eq_zero_of_le h]

theorem take_overwrite (new : Str) (hn : n ≤ start) (hlen : n ≤ file.length) :
    (overwrite file start new).take n = file.take n := by
  unfold overwrite
  rw [append_assoc, append_assoc, take_append_of_le_length (by simp; omega), take_take]
  congr 1
  omega

theorem drop_overwrite (new : Str) (hn : start + new.length ≤ n) :
    (overwrite file start new).drop n = file.drop n := by
  have hfront : (file.take start ++ replicate (start - file.length) (0 : Byte) ++ new).length =
      start + new.length := by
    simp only [length_append, length_take, length_replicate]
    omega
  obtain ⟨i, rfl⟩ := Nat.exists_eq_add_of_le hn
  unfold overwrite
  rw [drop_append, hfront, drop_eq_nil_of_le (by omega), nil_append, drop_drop]
  congr 1
  omega

theorem drop_overwrite_self (file : Str) (start : Nat) (new : Str) :
    (overwrite file start new).drop start = new ++ file.drop (start + new.length) := by
  unfold overwrite
  rw [append_assoc, drop_left']
  simp only [length_append, length_take, length_replicate]
  omega

theorem overwrite_append (front rest : Str) (p : Nat) (new : Str) :
    overwrite (front ++ rest) (front.length + p) new = front ++ overwrite rest p new := by
  have hpad : front.length + p - (front ++ rest).length = p - rest.length := by
    rw [length_append]
    omega
  unfold overwrite
  rw [hpad, take_append, take_of_length_le (by omega), Nat.add_sub_cancel_left, Nat.add_assoc,
    drop_append, drop_eq_nil_of_le (by omega), nil_append, Nat.add_sub_cancel_left]
  simp only [append_assoc]

theorem overwrite_zero (file new : Str) : overwrite file 0 new = new ++ file.drop new.length := by
  simp [overwrite]

theorem overwrite_resumed (file : Str) (start : Nat) (a b : Str) :
    overwrite (overwrite file start a) (start + a.length) b = overwrite file start (a ++ b) := by
  have hfront : (file.take start ++ replicate (start - file.length) (0 : Byte) ++ a).length = start + a.length := by
    simp only [length_append, length_take, length_replicate]
    omega
  have h := overwrite_append (file.take start ++ replicate (start - file.length) 0 ++ a)
    (file.drop (start + a.length)) 0 b
  rw [hfront, Nat.add_zero, overwrite_zero, drop_drop] at h
  refine h.trans ?_
  simp only [overwrite, append_assoc, length_append, Nat.add_assoc]

theorem drop_overwrite_add (file : Str) (r p : Nat) (new : Str) :
    (overwrite file (r + p) new).drop r = overwrite (file.drop r) p new := by
  by_cases hr : r ≤ file.length
  · have h := overwrite_append (file.take r) (file.drop r) p new
    have hlen : (file.take r).length = r := by rw [length_take, Nat.min_eq_left hr]
    rw [take_append_drop, hlen] at h
    rw [h, drop_left' hlen]
  · -- the gap a write leaves past the end is zeros, from the position on as from the file's start
    have hnil : file.drop r = [] := drop_eq_nil_of_le (by omega)
    have hpast : file.drop (r + p + new.length) = [] := drop_eq_nil_of_le (by omega)
    have hgap : r + p - file.length - (r - file.length) = p := by omega
    have hzero : r - file.length - (r + p - file.length) = 0 := by omega
    unfold overwrite
    rw [hnil, hpast, take_of_length_le (by omega), append_nil, append_assoc, drop_append, hnil,
      drop_append, drop_replicate, length_replicate, hgap, hzero]
    simp

theorem drop_punch {len r : Nat} (h : start + len ≤ r ∨ len = 0) :
    (punch file start len).drop r = file.drop r := by
  refine ext_getElem? fun i => ?_
  rw [getElem?_drop, getElem?_drop, punch, getElem?_mapIdx]
  cases file[r + i]? with
  | none => rfl
  | some b => rw [Option.map_some, if_neg (by omega)]

theorem slice_overwrite {p : Nat} (new : Str) (hp : p + n ≤ start)
    (hlen : p + n ≤ file.length) : slice (overwrite file start new) p n = slice file p n := by
  have htake := take_overwrite new hp hlen
  unfold slice
  rw [if_pos hlen, if_pos (by rw [length_overwrite]; omega), take_drop, take_drop, htake]

theorem slice_overwrite_self (file : Str) (start : Nat) (new : Str) :
    slice (overwrite file start new) start new.length = some new := by
  refine slice_middle (file.take start ++ replicate (start - file.length) 0)
    (file.drop (start + new.length)) rfl ?_ rfl
  simp only [length_append, length_take, length_replicate]
  omega

theorem zeroFrom_iff :
    ZeroFrom file start ↔ file.drop start = replicate (file.length - start) 0 := by
  rw [eq_replicate_iff]
  constructor
  · intro h
    refine ⟨length_drop, fun b hb => ?_⟩
    obtain ⟨i, hi⟩ := mem_iff_getElem?.mp hb
    rw [getElem?_drop] at hi
    exact h (start + i) b (Nat.le_add_right _ _) hi
  · intro h i b hi hb
    refine h.2 b (mem_iff_getElem?.mpr ⟨i - start, ?_⟩)
    rw [getElem?_drop, ← hb]
    congr 1
    omega

theorem ZeroFrom.mono {m : Nat} (h : ZeroFrom file m) (hle : m ≤ n) : ZeroFrom file n :=
  fun i b hi hb => h i b (hle.trans hi) hb

theorem ZeroFrom.write (h : ZeroFrom file n) (new : Str)
    (hn : start + new.length ≤ n) : ZeroFrom (overwrite file start new) n := by
  have hlen : (overwrite file start new).length - n = file.length - n := by
    rw [length_overwrite]
    omega
  rw [zeroFrom_iff] at h ⊢
  rw [drop_overwrite new hn, h, hlen]

theorem ZeroFrom.write_zeros (h : ZeroFrom file n) (start len : Nat) :
    ZeroFrom (overwrite file start (replicate len 0)) n := by
  intro i b hi hb
  have hzero : ∀ {m j : Nat}, (replicate m (0 : Byte))[j]? = some b → b = 0 :=
    fun hj => eq_of_mem_replicate (mem_of_getElem? hj)
  unfold overwrite at hb
  rw [getElem?_append] at hb
  split at hb
  · rw [getElem?_append] at hb
    split at hb
    · rw [getElem?_append] at hb
      split at hb
      · rw [getElem?_take] at hb
        split at hb
        · exact h i b hi hb
        · cases hb
      · exact hzero hb
    · exact hzero hb
  · rename_i hpast
    rw [getElem?_drop] at hb
    simp only [length_append, length_take, length_replicate] at hpast hb
    exact h _ b (by omega) hb

theorem ZeroFrom.punched (h : ZeroFrom file n) (start len : Nat) :
    ZeroFrom (punch file start len) n := by
  intro i b hi hb
  unfold punch at hb
  rw [getElem?_mapIdx] at hb
  obtain ⟨c, hc, rfl⟩ := Option.map_eq_some_iff.mp hb
  split
  · rfl
  · exact h i c hi hc

theorem slice_punch {out : Str} {len p : Nat} (h : slice file p n = some out)
    (hend : p + n ≤ start + len) :
    slice (punch file start len) p n = some (out.mapIdx fun i b => if start ≤ p + i then 0 else b) := by
  unfold slice at h ⊢
  split at h
  · rename_i hlen
    cases h
    rw [if_pos (by simpa using hlen)]
    congr 1
    refine ext_getElem? fun i => ?_
    rw [getElem?_mapIdx, getElem?_take, getElem?_take, getElem?_drop, getElem?_drop]
    by_cases hi : i < n
    · rw [if_pos hi, if_pos hi, punch, getElem?_mapIdx]
      cases file[p + i]? with
      | none => rfl
      | some b =>
        simp only [Option.map_some, Option.some.injEq]
        by_cases hs : start ≤ p + i
        · rw [if_pos ⟨hs, by omega⟩, if_pos hs]
        · rw [if_neg (fun hc => hs hc.1), if_neg hs]
    · rw [if_neg hi, if_neg hi]
      rfl
  · cases h

end Files
