/-
Texts as lists of characters, measured and cut in UTF-8 bytes.  Every offset
in the library is a byte offset, so a cut can miss: `slice?` answers only when
both ends fall between two characters.
-/

namespace GradingRule

abbrev Text := List Char

namespace Text

def byteSize : Text → Nat
  | [] => 0
  | c :: rest => c.utf8Size + byteSize rest

@[simp] theorem byteSize_nil : byteSize [] = 0 := rfl

@[simp] theorem byteSize_cons (c : Char) (text : Text) :
    byteSize (c :: text) = c.utf8Size + byteSize text := rfl

@[simp] theorem byteSize_append (left right : Text) :
    byteSize (left ++ right) = byteSize left + byteSize right := by
  induction left with
  | nil => simp
  | cons c rest ih => simp [ih, Nat.add_assoc]

/-- What is left after the first `bytes` bytes; `none` if that many bytes are
not there or the cut would fall inside a character. -/
def dropBytes? : Nat → Text → Option Text
  | 0, text => some text
  | _ + 1, [] => none
  | bytes + 1, c :: rest =>
      if c.utf8Size ≤ bytes + 1 then dropBytes? (bytes + 1 - c.utf8Size) rest
      else none

/-- The first `bytes` bytes, under the same conditions. -/
def takeBytes? : Nat → Text → Option Text
  | 0, _ => some []
  | _ + 1, [] => none
  | bytes + 1, c :: rest =>
      if c.utf8Size ≤ bytes + 1 then
        (takeBytes? (bytes + 1 - c.utf8Size) rest).map (c :: ·)
      else none

/-- The part of a text from byte `start` up to byte `stop`. -/
def slice? (text : Text) (start stop : Nat) : Option Text :=
  (dropBytes? start text).bind (takeBytes? (stop - start))

theorem dropBytes?_append (left right : Text) :
    dropBytes? (byteSize left) (left ++ right) = some right := by
  induction left with
  | nil => simp [dropBytes?]
  | cons c rest ih =>
      have hpos := c.utf8Size_pos
      obtain ⟨n, hn⟩ : ∃ n, byteSize (c :: rest) = n + 1 :=
        ⟨byteSize (c :: rest) - 1, by simp; omega⟩
      have hrest : n + 1 - c.utf8Size = byteSize rest := by simp at hn; omega
      rw [List.cons_append, hn, dropBytes?, if_pos (by simp at hn; omega), hrest, ih]

theorem takeBytes?_append (left right : Text) :
    takeBytes? (byteSize left) (left ++ right) = some left := by
  induction left with
  | nil => simp [takeBytes?]
  | cons c rest ih =>
      have hpos := c.utf8Size_pos
      obtain ⟨n, hn⟩ : ∃ n, byteSize (c :: rest) = n + 1 :=
        ⟨byteSize (c :: rest) - 1, by simp; omega⟩
      have hrest : n + 1 - c.utf8Size = byteSize rest := by simp at hn; omega
      rw [List.cons_append, hn, takeBytes?, if_pos (by simp at hn; omega), hrest, ih]
      rfl

/-- Cutting out the middle of a text gives it back. -/
theorem slice?_append (before middle after : Text) :
    slice? (before ++ (middle ++ after)) (byteSize before)
      (byteSize before + byteSize middle) = some middle := by
  simp [slice?, dropBytes?_append, takeBytes?_append]

end Text

end GradingRule
