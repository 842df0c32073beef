/-!
# Chance

A simulation leaves two things to chance: the contents of its packets, and the order in which
segments arrive.  `Chance` holds both choices, and `Chance.Fair` says what may be relied on:
contents do not exceed the size asked for, and segments are reordered without loss.

Simulations take whatever choices they are given.  `Chance.seeded` is one way to make them, the same
ones for a seed every time; it is fair.  A seed stands for a stream of words, each the scrambled sum
of the seed and a multiple of a constant, so that every word can be had without those before it.
-/

namespace Ccf

/-- The choices that a simulation does not make itself. -/
structure Chance where
  /-- The contents of `count` packets with at most `maxSize` bytes each. -/
  contents : (count maxSize : Nat) → List (List UInt8)
  /-- A chunk of segments, given by its place among the chunks, in the order of arrival. -/
  arrange : Nat → List (List UInt8) → List (List UInt8)

namespace Chance

/-- Choices that a simulation can work with. -/
structure Fair (chance : Chance) : Prop where
  length_contents : ∀ count maxSize, (chance.contents count maxSize).length = count
  length_le : ∀ count maxSize, 0 < maxSize →
    ∀ content ∈ chance.contents count maxSize, content.length ≤ maxSize
  perm_arrange : ∀ chunk segments, (chance.arrange chunk segments).Perm segments

/-- A word in which every bit depends on every bit of the given one. -/
def scramble (word : UInt64) : UInt64 :=
  let once := (word ^^^ (word >>> 30)) * 0xbf58476d1ce4e5b9
  let twice := (once ^^^ (once >>> 27)) * 0x94d049bb133111eb
  twice ^^^ (twice >>> 31)

/-- The word at a place of the stream of a seed. -/
def word (seed : UInt64) (place : Nat) : UInt64 :=
  scramble (seed + UInt64.ofNat (place + 1) * 0x9e3779b97f4a7c15)

/-- Between one and `maxSize` bytes; the first word decides how many. -/
def content (stream : UInt64) (maxSize : Nat) : List UInt8 :=
  (List.range (1 + (word stream 0).toNat % maxSize)).map fun place =>
    (word stream (place + 1)).toUInt8

/-- A list in the order of the words at the places of its items. -/
def shuffle {α : Type} (stream : UInt64) (items : List α) : List α :=
  (items.zipIdx.mergeSort fun left right =>
    decide (word stream left.2 ≤ word stream right.2)).map Prod.fst

def seeded (seed : UInt64) : Chance where
  contents := fun count maxSize => (List.range count).map fun place =>
    content (word seed place) maxSize
  arrange := fun chunk segments => shuffle (word (~~~seed) chunk) segments

theorem length_content_le (stream : UInt64) {maxSize : Nat} (hsize : 0 < maxSize) :
    (content stream maxSize).length ≤ maxSize := by
  have := Nat.mod_lt (word stream 0).toNat hsize
  simp only [content, List.length_map, List.length_range]
  omega

theorem shuffle_perm {α : Type} (stream : UInt64) (items : List α) :
    (shuffle stream items).Perm items := by
  have hsorted := (List.mergeSort_perm items.zipIdx fun left right =>
    decide (word stream left.2 ≤ word stream right.2)).map Prod.fst
  simpa [shuffle] using hsorted

theorem fair_seeded (seed : UInt64) : (seeded seed).Fair where
  length_contents := by simp [seeded]
  length_le := by
    intro count maxSize hsize bytes hbytes
    obtain ⟨place, _, rfl⟩ := List.mem_map.1 hbytes
    exact length_content_le _ hsize
  perm_arrange := by
    intro chunk segments
    exact shuffle_perm _ segments

end Chance

end Ccf
