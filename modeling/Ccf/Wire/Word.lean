/-!
# Sixteen-bit words on the wire

Every header is a sequence of 16-bit words, most significant byte first.  The two lemmas say that
writing and reading a word undo each other, so nothing else has to look inside the bytes.
-/

namespace Ccf.Word

/-- The two bytes of a word, most significant first. -/
def toBytes (word : UInt16) : List UInt8 :=
  [UInt8.ofNat (word.toNat / 256), UInt8.ofNat word.toNat]

/-- The word whose bytes are `high` and `low`. -/
def ofBytes (high low : UInt8) : UInt16 :=
  UInt16.ofNat (high.toNat * 256 + low.toNat)

theorem toNat_ofBytes (high low : UInt8) :
    (ofBytes high low).toNat = high.toNat * 256 + low.toNat := by
  have hhigh := high.toNat_lt
  have hlow := low.toNat_lt
  simp only [ofBytes, UInt16.toNat_ofNat']
  omega

/-- Reading the two bytes of a word gives the word back. -/
theorem ofBytes_toBytes (word : UInt16) :
    ofBytes (UInt8.ofNat (word.toNat / 256)) (UInt8.ofNat word.toNat) = word := by
  have hword := word.toNat_lt
  apply UInt16.toNat_inj.mp
  rw [toNat_ofBytes]
  simp only [UInt8.toNat_ofNat']
  omega

/-- Writing the word read from two bytes gives those bytes back. -/
theorem toBytes_ofBytes (high low : UInt8) : toBytes (ofBytes high low) = [high, low] := by
  have hhigh := high.toNat_lt
  have hlow := low.toNat_lt
  simp only [toBytes, toNat_ofBytes, List.cons.injEq, and_true]
  constructor <;> apply UInt8.toNat_inj.mp <;> simp only [UInt8.toNat_ofNat'] <;> omega

@[simp]
theorem length_toBytes (word : UInt16) : (toBytes word).length = 2 := rfl

end Ccf.Word
