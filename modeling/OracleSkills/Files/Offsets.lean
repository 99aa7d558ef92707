import Mathlib.Data.List.Basic

/-!
# Writing at a position of a file

A process that has opened a file keeps a position of its own. What it writes there takes the place
of what is at the positions it comes to, whoever wrote that; and where the file ends before the
position, because another process has cut it off in between, the gap is filled.

`getElem?_writeAt` says what is at each place afterwards. A process that is alone writes its data
portion by portion (`writeAt_take`); one that writes from the beginning of a file that is longer
leaves the rest of it (`writeAt_zero`).
-/

namespace Files

universe u

variable {β : Type u}

/-- The bytes `bs`, at least one, are written at `pos`; `z` fills the gap. -/
def writeAt (z : β) (f : List β) (pos : ℕ) (bs : List β) : List β :=
  f.take pos ++ List.replicate (pos - f.length) z ++ bs ++ f.drop (pos + bs.length)

variable {z : β} {f bs t : List β} {pos k n : ℕ} {b : β}

/-- What stands before the position. -/
theorem length_head : (f.take pos ++ List.replicate (pos - f.length) z).length = pos := by
  rw [List.length_append, List.length_take, List.length_replicate]
  omega

/-- **What is at each place** after a write. -/
theorem getElem?_writeAt : (writeAt z f pos bs)[k]? =
    if k < pos then (if k < f.length then f[k]? else some z)
    else if k < pos + bs.length then bs[k - pos]? else f[k]? := by
  have hhead : (f.take pos ++ List.replicate (pos - f.length) z).length = pos := length_head
  rw [writeAt, List.append_assoc]
  by_cases hk : k < pos
  · rw [if_pos hk, List.getElem?_append_left (by omega)]
    by_cases hf : k < f.length
    · rw [if_pos hf, List.getElem?_append_left (by rw [List.length_take]; omega),
        List.getElem?_take_of_lt hk]
    · rw [if_neg hf, List.getElem?_append_right (by rw [List.length_take]; omega),
        List.getElem?_replicate, if_pos (by rw [List.length_take]; omega)]
  · rw [if_neg hk, List.getElem?_append_right (by omega), hhead]
    by_cases hb : k < pos + bs.length
    · rw [if_pos hb, List.getElem?_append_left (by omega)]
    · rw [if_neg hb, List.getElem?_append_right (by omega), List.getElem?_drop]
      congr 1
      omega

/-- Each byte was there before, or fills the gap, or has been written. -/
theorem origin_of_writeAt (h : (writeAt z f pos bs)[k]? = some b) :
    f[k]? = some b ∨ b = z ∨ pos ≤ k ∧ bs[k - pos]? = some b := by
  rw [getElem?_writeAt] at h
  split_ifs at h with hpos hlen hbs
  · exact .inl h
  · exact .inr (.inl (Option.some.inj h).symm)
  · exact .inr (.inr ⟨by omega, h⟩)
  · exact .inl h

/-- A process that is alone goes on where the file ends. -/
theorem writeAt_length : writeAt z f f.length bs = f ++ bs := by
  rw [writeAt, List.take_length, Nat.sub_self, List.replicate_zero, List.append_nil,
    List.drop_of_length_le (by omega), List.append_nil]

/-- **A portion of the data**, behind those that are there. -/
theorem writeAt_take (hpos : pos ≤ t.length) :
    writeAt z (t.take pos) pos ((t.drop pos).take n) = t.take (pos + n) := by
  have hlen : (t.take pos).length = pos := by rw [List.length_take]; omega
  have h : writeAt z (t.take pos) (t.take pos).length ((t.drop pos).take n) = t.take pos ++
      (t.drop pos).take n :=
    writeAt_length
  rw [hlen] at h
  rw [h, List.take_add]

/-- What is written from the beginning leaves what is behind it. -/
theorem writeAt_zero : writeAt z f 0 bs = bs ++ f.drop bs.length := by
  rw [writeAt, List.take_zero, Nat.zero_sub, List.replicate_zero, List.nil_append, List.nil_append,
    Nat.zero_add]

end Files
