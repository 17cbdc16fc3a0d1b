import Mathlib.Data.Nat.Basic
import Mathlib.Tactic.Ring

/-!
# Byte strings

Big-endian numbers of a fixed width and files that are written at an offset.

* `ofBeBytes_beBytes`, `beBytes_ofBeBytes`: the number and the bytes come back.
* `readAt_middle`: reading back a part of a file.
* `writeAt_length`, `writeAt_middle`, `writeAt_writeAt`: writing at the end of a
  file, inside of it and in several pieces.
* `writeAt_torn`: a number that is half overwritten by a greater one does not fall
  below what it was.
-/

namespace Everarch

abbrev Bytes := List UInt8

/-- What C's string functions see of a buffer that ends with a zero. -/
def cString (buf : Bytes) : Bytes :=
  buf.takeWhile fun b => b ≠ 0

/-! ## Big-endian numbers -/

/-- The `w` low bytes of `n`, the most significant first. -/
def beBytes : Nat → Nat → Bytes
  | 0, _ => []
  | w + 1, n => UInt8.ofNat (n / 256 ^ w) :: beBytes w n

/-- The number that bytes spell. -/
def ofBeBytes (bs : Bytes) : Nat :=
  bs.foldl (fun n b => n * 256 + b.toNat) 0

@[simp] theorem length_beBytes (w n : Nat) : (beBytes w n).length = w := by
  induction w with
  | zero => rfl
  | succ w ih => rw [beBytes, List.length_cons, ih]

theorem foldl_be (bs : Bytes) (acc : Nat) :
    bs.foldl (fun n b => n * 256 + b.toNat) acc = acc * 256 ^ bs.length + ofBeBytes bs := by
  induction bs generalizing acc with
  | nil => simp [ofBeBytes]
  | cons b bs ih =>
    unfold ofBeBytes
    rw [List.foldl_cons, List.foldl_cons, ih, ih, List.length_cons]
    ring

theorem ofBeBytes_append (as bs : Bytes) :
    ofBeBytes (as ++ bs) = ofBeBytes as * 256 ^ bs.length + ofBeBytes bs := by
  show List.foldl _ _ _ = _
  rw [List.foldl_append, foldl_be]
  rfl

theorem ofBeBytes_cons (b : UInt8) (bs : Bytes) :
    ofBeBytes (b :: bs) = b.toNat * 256 ^ bs.length + ofBeBytes bs := by
  rw [← List.singleton_append, ofBeBytes_append]
  simp [ofBeBytes]

theorem ofBeBytes_beBytes_mod (w n : Nat) : ofBeBytes (beBytes w n) = n % 256 ^ w := by
  induction w with
  | zero => simp [beBytes, ofBeBytes, Nat.mod_one]
  | succ w ih =>
    have hbyte : (UInt8.ofNat (n / 256 ^ w)).toNat = n / 256 ^ w % 256 := rfl
    rw [beBytes, ofBeBytes_cons, length_beBytes, ih, hbyte, Nat.pow_succ, Nat.mod_mul]
    ring

theorem ofBeBytes_beBytes {w n : Nat} (h : n < 256 ^ w) : ofBeBytes (beBytes w n) = n := by
  rw [ofBeBytes_beBytes_mod, Nat.mod_eq_of_lt h]

theorem ofBeBytes_lt (bs : Bytes) : ofBeBytes bs < 256 ^ bs.length := by
  induction bs with
  | nil => decide
  | cons b bs ih =>
    have hb : b.toNat + 1 ≤ 256 := b.toNat_lt
    calc ofBeBytes (b :: bs) = b.toNat * 256 ^ bs.length + ofBeBytes bs := ofBeBytes_cons b bs
      _ < (b.toNat + 1) * 256 ^ bs.length := by rw [Nat.succ_mul]; exact Nat.add_lt_add_left ih _
      _ ≤ 256 * 256 ^ bs.length := Nat.mul_le_mul_right _ hb
      _ = 256 ^ (b :: bs).length := (Nat.pow_succ').symm

theorem ofBeBytes_inj {as bs : Bytes} (hlen : as.length = bs.length)
    (h : ofBeBytes as = ofBeBytes bs) : as = bs := by
  induction as generalizing bs with
  | nil => exact (List.length_eq_zero_iff.mp hlen.symm).symm
  | cons a as ih =>
    cases bs with
    | nil => exact absurd hlen (Nat.succ_ne_zero _)
    | cons b bs =>
      have hlen' : as.length = bs.length := Nat.succ.inj hlen
      have hpos : 0 < 256 ^ bs.length := Nat.pow_pos (by decide)
      have ha := ofBeBytes_lt as
      have hb := ofBeBytes_lt bs
      rw [hlen'] at ha
      rw [ofBeBytes_cons, ofBeBytes_cons, hlen', Nat.mul_comm, Nat.mul_comm b.toNat] at h
      have hhead := congrArg (· / 256 ^ bs.length) h
      have htail := congrArg (· % 256 ^ bs.length) h
      simp only [Nat.mul_add_div hpos, Nat.div_eq_of_lt ha, Nat.div_eq_of_lt hb, Nat.add_zero]
        at hhead
      simp only [Nat.mul_add_mod, Nat.mod_eq_of_lt ha, Nat.mod_eq_of_lt hb] at htail
      rw [UInt8.toNat_inj.mp hhead, ih hlen' htail]

theorem beBytes_ofBeBytes (bs : Bytes) : beBytes bs.length (ofBeBytes bs) = bs :=
  ofBeBytes_inj (length_beBytes _ _) (ofBeBytes_beBytes (ofBeBytes_lt bs))

theorem take_beBytes (w n t : Nat) (h : t ≤ w) :
    (beBytes w n).take t = beBytes t (n / 256 ^ (w - t)) := by
  induction w generalizing t with
  | zero => simp [Nat.le_zero.mp h, beBytes]
  | succ w ih =>
    cases t with
    | zero => simp [beBytes]
    | succ t =>
      have hle : t ≤ w := Nat.le_of_succ_le_succ h
      rw [beBytes, List.take_succ_cons, ih t hle, beBytes, Nat.add_sub_add_right,
        Nat.div_div_eq_div_mul, ← Nat.pow_add, Nat.sub_add_cancel hle]

theorem drop_beBytes (w n t : Nat) (h : t ≤ w) : (beBytes w n).drop t = beBytes (w - t) n := by
  induction w generalizing t with
  | zero => simp [Nat.le_zero.mp h, beBytes]
  | succ w ih =>
    cases t with
    | zero => simp
    | succ t =>
      rw [beBytes, List.drop_succ_cons, ih t (Nat.le_of_succ_le_succ h), Nat.add_sub_add_right]

/-- A write of `new` over `old` that stops after `t` bytes leaves at least `old`. -/
theorem le_ofBeBytes_torn {w old new t : Nat} (hle : old ≤ new) (hnew : new < 256 ^ w)
    (ht : t ≤ w) : old ≤ ofBeBytes ((beBytes w new).take t ++ (beBytes w old).drop t) := by
  have hsplit : 256 ^ w = 256 ^ (w - t) * 256 ^ t := by
    rw [← Nat.pow_add, Nat.sub_add_cancel ht]
  have hhigh : new / 256 ^ (w - t) < 256 ^ t := by
    rw [Nat.div_lt_iff_lt_mul (Nat.pow_pos (by decide)), Nat.mul_comm, ← hsplit]
    exact hnew
  rw [take_beBytes w new t ht, drop_beBytes w old t ht, ofBeBytes_append, length_beBytes,
    ofBeBytes_beBytes hhigh, ofBeBytes_beBytes_mod]
  calc old = old / 256 ^ (w - t) * 256 ^ (w - t) + old % 256 ^ (w - t) :=
        (Nat.div_add_mod' old _).symm
    _ ≤ new / 256 ^ (w - t) * 256 ^ (w - t) + old % 256 ^ (w - t) :=
        Nat.add_le_add_right (Nat.mul_le_mul_right _ (Nat.div_le_div_right hle)) _

/-! ## Files -/

/-- `lseek` to an offset and a write there. A gap behind the end reads as zeros. -/
def writeAt (file : Bytes) (offset : Nat) (data : Bytes) : Bytes :=
  if data = [] then file
  else file.take offset ++ List.replicate (offset - file.length) 0 ++ data ++
    file.drop (offset + data.length)

/-- At most `n` bytes from an offset on. -/
def readAt (file : Bytes) (offset n : Nat) : Bytes :=
  (file.drop offset).take n

@[simp] theorem writeAt_nil (file : Bytes) (offset : Nat) : writeAt file offset [] = file := rfl

theorem readAt_middle {file before data after : Bytes} {offset n : Nat}
    (h : file = before ++ data ++ after) (hoffset : before.length = offset)
    (hn : data.length = n) : readAt file offset n = data := by
  rw [h, readAt, ← hoffset, ← hn, List.append_assoc, List.drop_left, List.take_left]

theorem readAt_add (file : Bytes) (offset n m : Nat) :
    readAt file offset (n + m) = readAt file offset n ++ readAt file (offset + n) m := by
  rw [readAt, readAt, readAt, List.take_add, List.drop_drop]

/-- A part of what was read. -/
theorem readAt_part {offset n a k : Nat} (h : a + k ≤ n) (file : Bytes) :
    readAt file (offset + a) k = ((readAt file offset n).drop a).take k := by
  have hle : k ≤ n - a := Nat.le_sub_of_add_le' h
  rw [readAt, readAt, List.drop_take, List.take_take, Nat.min_eq_left hle, List.drop_drop]

theorem getD_middle {file before after : Bytes} {b : UInt8} {i : Nat}
    (h : file = before ++ [b] ++ after) (hi : before.length = i) : file.getD i 0 = b := by
  rw [h, ← hi]
  simp

theorem writeAt_of_le {file : Bytes} {offset : Nat} (h : offset ≤ file.length) (data : Bytes) :
    writeAt file offset data = file.take offset ++ data ++ file.drop (offset + data.length) := by
  unfold writeAt
  split
  · next hdata => simp [hdata]
  · rw [Nat.sub_eq_zero_of_le h]
    simp

theorem writeAt_length (file data : Bytes) : writeAt file file.length data = file ++ data := by
  rw [writeAt_of_le (Nat.le_refl _)]
  simp

theorem writeAt_middle (before old after data : Bytes) (h : data.length ≤ old.length) :
    writeAt (before ++ old ++ after) before.length data =
      before ++ (data ++ old.drop data.length) ++ after := by
  rw [writeAt_of_le (by simp), List.append_assoc before old after, List.take_left,
    List.drop_append, List.drop_eq_nil_of_le (Nat.le_add_right _ _), Nat.add_sub_cancel_left,
    List.drop_append_of_le_length h]
  simp

theorem length_take_replicate (file : Bytes) (offset : Nat) :
    (file.take offset ++ List.replicate (offset - file.length) 0).length = offset := by
  rw [List.length_append, List.length_take, List.length_replicate]
  omega

theorem length_writeAt {file data : Bytes} (h : data ≠ []) (offset : Nat) :
    (writeAt file offset data).length = max file.length (offset + data.length) := by
  rw [writeAt, if_neg h, List.length_append, List.length_append, length_take_replicate,
    List.length_drop]
  omega

theorem le_length_writeAt (file : Bytes) (offset : Nat) (data : Bytes) :
    file.length ≤ (writeAt file offset data).length := by
  by_cases h : data = []
  · rw [h, writeAt_nil]
  · rw [length_writeAt h]
    exact Nat.le_max_left _ _

theorem writeAt_writeAt (file : Bytes) (offset : Nat) (data data' : Bytes) :
    writeAt (writeAt file offset data) (offset + data.length) data' =
      writeAt file offset (data ++ data') := by
  by_cases hdata : data = []
  · rw [hdata, writeAt_nil]
    rfl
  · have hle : offset + data.length ≤ (writeAt file offset data).length := by
      rw [length_writeAt hdata]
      exact Nat.le_max_right _ _
    have hlen : (file.take offset ++ List.replicate (offset - file.length) 0 ++ data).length =
        offset + data.length := by rw [List.length_append, length_take_replicate]
    rw [writeAt_of_le hle, writeAt, if_neg hdata, writeAt, if_neg (by simp [hdata]), ← hlen,
      List.take_left, List.drop_append, List.drop_eq_nil_of_le (Nat.le_add_right _ _),
      Nat.add_sub_cancel_left, List.drop_drop, hlen]
    simp [Nat.add_assoc]

theorem readAt_writeAt_self (file : Bytes) (offset : Nat) (data : Bytes) :
    readAt (writeAt file offset data) offset data.length = data := by
  by_cases h : data = []
  · simp [h, readAt]
  · rw [writeAt, if_neg h]
    exact readAt_middle rfl (length_take_replicate file offset) rfl

/-- A write does not change what stands before it. -/
theorem readAt_writeAt_before {file : Bytes} {offset offset' n : Nat} (hle : offset' + n ≤ offset)
    (hlen : offset' + n ≤ file.length) (data : Bytes) :
    readAt (writeAt file offset data) offset' n = readAt file offset' n := by
  have htake : (writeAt file offset data).take (offset' + n) = file.take (offset' + n) := by
    unfold writeAt
    split
    · rfl
    · rw [List.append_assoc, List.append_assoc, List.take_append_of_le_length
        (by rw [List.length_take]; omega), List.take_take, Nat.min_eq_left hle]
  rw [readAt, readAt, List.take_drop, htake, List.take_drop]

/-- A write does not change what stands behind it. -/
theorem readAt_writeAt_behind {offset offset' : Nat} {data : Bytes}
    (hle : offset + data.length ≤ offset') (file : Bytes) (n : Nat) :
    readAt (writeAt file offset data) offset' n = readAt file offset' n := by
  unfold writeAt
  split
  · rfl
  · have hlen : (file.take offset ++ List.replicate (offset - file.length) 0 ++ data).length =
        offset + data.length := by rw [List.length_append, length_take_replicate]
    rw [readAt, readAt, List.drop_append, List.drop_eq_nil_of_le (hlen.trans_le hle), hlen,
      List.nil_append, List.drop_drop, Nat.add_sub_cancel' hle]

/-- A number in a file that is half overwritten by a greater one. -/
theorem writeAt_torn {w old new : Nat} (hle : old ≤ new) (hnew : new < 256 ^ w)
    (before after : Bytes) (m : Nat) :
    ∃ n, old ≤ n ∧ n < 256 ^ w ∧
      writeAt (before ++ beBytes w old ++ after) before.length ((beBytes w new).take m) =
        before ++ beBytes w n ++ after := by
  have htake : (beBytes w new).take m = (beBytes w new).take (min m w) := by
    rw [← List.take_take, List.take_of_length_le (Nat.le_of_eq (length_beBytes w new))]
  have hlen : ((beBytes w new).take (min m w)).length = min m w := by
    rw [List.length_take, length_beBytes]
    exact Nat.min_eq_left (Nat.min_le_right _ _)
  have htorn : ((beBytes w new).take (min m w) ++ (beBytes w old).drop (min m w)).length = w := by
    rw [List.length_append, hlen, List.length_drop, length_beBytes]
    exact Nat.add_sub_cancel' (Nat.min_le_right m w)
  have hbytes := beBytes_ofBeBytes ((beBytes w new).take (min m w) ++ (beBytes w old).drop (min m w))
  have hlt := ofBeBytes_lt ((beBytes w new).take (min m w) ++ (beBytes w old).drop (min m w))
  rw [htorn] at hbytes hlt
  refine ⟨_, le_ofBeBytes_torn hle hnew (Nat.min_le_right m w), hlt, ?_⟩
  rw [htake, writeAt_middle _ _ _ _ (by rw [hlen, length_beBytes]; exact Nat.min_le_right _ _),
    hlen, hbytes]

end Everarch
