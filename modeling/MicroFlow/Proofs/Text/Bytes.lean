import MicroFlow.Text.Decimal
import MicroFlow.Text.Utf8

/-!
# Texts, bytes and numerals

The bytes of a text are the encodings of its characters one after the other, so texts can be put
together and told apart by their bytes.  The decimal digits that are written for a number stand for
the number.
-/

namespace MicroFlow.Text

/-- The loop over an array collects its elements behind an index. -/
theorem toList_loop (x : ByteArray) (i : Nat) (r : Bytes) :
    ByteArray.toList.loop x i r = r.reverse ++ x.data.toList.drop i := by
  fun_induction ByteArray.toList.loop x i r with
  | case1 i r h ih =>
    have hi : i < x.data.toList.length := h
    have hget : x.get! i = x.data.toList[i] := by
      show x.data[i]! = _
      rw [getElem!_pos x.data i h, Array.getElem_toList]
    rw [ih, List.drop_eq_getElem_cons hi, List.reverse_cons, List.append_assoc, hget]
    rfl
  | case2 i r h =>
    have hi : x.data.toList.length ≤ i := Nat.le_of_not_lt h
    rw [List.drop_eq_nil_of_le hi, List.append_nil]

theorem toBytes_eq (s : String) : toBytes s = s.toByteArray.data.toList := by
  show ByteArray.toList.loop s.toByteArray 0 [] = _
  rw [toList_loop, List.reverse_nil, List.nil_append, List.drop_zero]

/-- A text is known by its bytes. -/
theorem toBytes_inj {s t : String} (h : toBytes s = toBytes t) : s = t := by
  rw [toBytes_eq, toBytes_eq] at h
  exact String.toByteArray_inj.mp (ByteArray.ext (Array.toList_inj.mp h))

/-- The bytes of texts in a row. -/
theorem toBytes_append (s t : String) : toBytes (s ++ t) = toBytes s ++ toBytes t := by
  rw [toBytes_eq, toBytes_eq, toBytes_eq, String.toByteArray_append, ByteArray.data_append,
    Array.toList_append]

theorem utf8EncodeChar_ascii {c : Char} (h : c.toNat < 128) :
    String.utf8EncodeChar c = [c.toNat.toUInt8] := by
  unfold String.utf8EncodeChar
  exact if_pos (Nat.le_of_lt_succ h)

/-- ASCII characters are bytes. -/
theorem toBytes_ofList {cs : List Char} (h : ∀ c ∈ cs, c.toNat < 128) :
    toBytes (String.ofList cs) = cs.map fun c => c.toNat.toUInt8 := by
  rw [toBytes_eq, String.toByteArray_ofList, List.utf8Encode, List.data_toByteArray]
  show cs.flatMap String.utf8EncodeChar = _
  rw [List.map_eq_flatMap, List.flatMap_def, List.flatMap_def]
  exact congrArg List.flatten (List.map_congr_left fun c hc => utf8EncodeChar_ascii (h c hc))

/-- The digits of a number stand for it. -/
theorem ofDigits_toString (n : Nat) : ofDigits (toString n).toList = n := by
  have hstep : (fun (n : Nat) (c : Char) => n * 10 + digitValue c) =
      fun n c => 10 * n + (c.toNat - '0'.toNat) := by
    funext n c
    rw [Nat.mul_comm]
    rfl
  show ofDigits n.repr.toList = n
  rw [Nat.toList_repr, ofDigits, hstep]
  exact Nat.ofDigitChars_ten_toDigits

end MicroFlow.Text
