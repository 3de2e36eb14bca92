import MiniCoin.ChainCodec

/-!
# The bytes of the texts

The serialisers write few bytes of their own: keys, digits, punctuation and the backslash of an
escape. What holds of these and of the bytes in the text fields holds of every byte that is
written.
-/

namespace MiniCoin

open ByteStrings QuotedText

/-- The bytes of keys, numbers and punctuation, and the backslash of an
escape. -/
def syntaxBytes : List UInt8 := ascii "\x7b\x7d[],:\"\\-_0123456789abcdefghiklmnoprstuvx"

/-- The text fields of a block and of the transactions it lists. -/
def Block.texts (block : Block) : List UInt8 :=
  block.prevHash.bytes ++ block.hash.bytes ++ block.listed.flatMap Tx.texts

/-- What holds of all text fields of a block holds of both hashes and of the
fields of each listed transaction. Both directions are needed: one to take a
block apart, one to build one. -/
theorem forall_block_texts (block : Block) (property : UInt8 → Prop) :
    (∀ c ∈ block.texts, property c) ↔ (∀ c ∈ block.prevHash.bytes, property c) ∧
      (∀ c ∈ block.hash.bytes, property c) ∧ ∀ tx ∈ block.listed, ∀ c ∈ tx.texts, property c := by
  simp only [Block.texts, List.mem_append, List.mem_flatMap]
  constructor
  · intro all
    exact ⟨fun c member => all c (Or.inl (Or.inl member)), fun c member => all c (Or.inl (Or.inr member)),
      fun tx listed c member => all c (Or.inr ⟨tx, listed, member⟩)⟩
  · rintro ⟨prevHash, hash, txs⟩ c ((inPrev | inHash) | ⟨tx, listed, member⟩)
    · exact prevHash c inPrev
    · exact hash c inHash
    · exact txs tx listed c member

/-- The digits of a number are among the bytes of the syntax. -/
theorem syntaxBytes_decimal (n : Nat) : decimal n ⊆ syntaxBytes := by
  have digits : ∀ code < 256, isDigit code.toUInt8 = true → code.toUInt8 ∈ syntaxBytes := by
    decide +kernel
  intro c member
  simpa using digits c.toNat c.toNat_lt (by simpa using decimal_digits n c member)

/-- So are the digits of a signed number with its minus sign. -/
theorem syntaxBytes_signedDecimal (z : Int) : signedDecimal z ⊆ syntaxBytes := by
  unfold signedDecimal
  split
  · exact List.cons_subset.mpr ⟨by decide, syntaxBytes_decimal _⟩
  · exact syntaxBytes_decimal _

section

variable {property : UInt8 → Prop} (marks : ∀ c ∈ syntaxBytes, property c)

include marks

/-- A number is written with bytes of the syntax only, so the property holds of
it. -/
theorem forall_signedDecimal (z : Int) : ∀ c ∈ signedDecimal z, property c :=
  fun c member => marks c (syntaxBytes_signedDecimal z member)

/-- A quoted field brings the bytes of its text, two quotes and the backslashes
of its escapes. -/
theorem forall_quoted (text : List UInt8) (inText : ∀ c ∈ text, property c) :
    ∀ c ∈ (Piece.quoted (escape text)).render, property c := by
  intro c member
  simp only [Piece.render, List.mem_cons, List.mem_append, List.not_mem_nil, or_false] at member
  rcases member with rfl | body | rfl
  · exact marks 34 (by decide)
  · rcases mem_escape text c body with original | rfl
    · exact inText c original
    · exact marks 92 (by decide)
  · exact marks 34 (by decide)

/-- The bytes of a serialised transaction: those of its four text fields, and
syntax. -/
theorem forall_txPieces (tx : Tx) (texts : ∀ c ∈ tx.texts, property c) :
    ∀ c ∈ render (txPieces tx), property c := by
  simp only [Tx.texts, List.mem_append] at texts
  have fields := forall_fieldPieces property (txFields tx) (marks 34 (by decide)) (marks 58 (by decide))
    (fun field member c inKey => marks c
      ((by decide : ∀ key ∈ txKeys, ∀ c ∈ key, c ∈ syntaxBytes) field.key
        (txFields_keys tx ▸ List.mem_map_of_mem member) c inKey))
    (by
      simp only [txFields, List.mem_cons, List.not_mem_nil, or_false]
      rintro field (rfl | rfl | rfl | rfl | rfl | rfl)
      · exact forall_quoted marks _ fun c member => texts c (.inl (.inl (.inl member)))
      · exact forall_quoted marks _ fun c member => texts c (.inl (.inl (.inr member)))
      · exact fun c member => marks c (syntaxBytes_decimal _ member)
      · exact fun c member => marks c (syntaxBytes_decimal _ member)
      · exact forall_quoted marks _ fun c member => texts c (.inl (.inr member))
      · exact forall_quoted marks _ fun c member => texts c (.inr member))
    (by
      intro field member
      exact marks _ ((by decide : ∀ close ∈ [44, 125], close ∈ syntaxBytes) _
        (by
          simp only [txFields, List.mem_cons, List.not_mem_nil, or_false] at member
          rcases member with rfl | rfl | rfl | rfl | rfl | rfl <;> simp)))
  intro c member
  rcases List.mem_cons.mp member with rfl | inFields
  · exact marks 123 (by decide)
  · exact fields c inFields

/-- The bytes of the array of transactions. The induction is on the list, and
the comma in front of every object but the first is syntax. -/
theorem forall_txsPieces (comma : Bool) (txs : List Tx) (texts : ∀ tx ∈ txs, ∀ c ∈ tx.texts, property c) :
    ∀ c ∈ render (txsPieces comma txs), property c := by
  induction txs generalizing comma with
  | nil => exact fun c member => absurd member List.not_mem_nil
  | cons tx rest ih =>
    intro c member
    simp only [txsPieces, render_append, List.mem_append] at member
    rcases member with (separator | object) | others
    · cases comma with
      | false => exact absurd separator List.not_mem_nil
      | true =>
        obtain rfl := List.mem_singleton.mp separator
        exact marks 44 (by decide)
    · exact forall_txPieces marks tx (texts tx (by simp)) c object
    · exact ih true (fun other inRest => texts other (by simp [inRest])) c others

/-- The bytes of a serialised block: its two hashes, its transactions, and
syntax. -/
theorem forall_blockPieces (block : Block) (texts : ∀ c ∈ block.texts, property c) :
    ∀ c ∈ render (blockPieces block []), property c := by
  obtain ⟨prevHash, hash, listed⟩ := (forall_block_texts block property).mp texts
  have fields := forall_fieldPieces property (blockFields block) (marks 34 (by decide))
    (marks 58 (by decide))
    (fun field member c inKey => marks c
      ((by decide : ∀ key ∈ blockKeys, ∀ c ∈ key, c ∈ syntaxBytes) field.key
        (blockFields_keys block ▸ List.mem_map_of_mem member) c inKey))
    (by
      simp only [blockFields, List.mem_cons, List.not_mem_nil, or_false]
      rintro field (rfl | rfl | rfl | rfl | rfl | rfl | rfl)
      · exact fun c member => marks c (syntaxBytes_decimal _ member)
      · exact forall_signedDecimal marks _
      · exact forall_quoted marks _ prevHash
      · exact fun c member => marks c (syntaxBytes_decimal _ member)
      · exact forall_quoted marks _ hash
      · exact forall_signedDecimal marks _
      · exact fun c none => absurd none List.not_mem_nil)
    (by
      intro field member
      exact marks _ ((by decide : ∀ close ∈ [44, 91], close ∈ syntaxBytes) _
        (by
          simp only [blockFields, List.mem_cons, List.not_mem_nil, or_false] at member
          rcases member with rfl | rfl | rfl | rfl | rfl | rfl | rfl <;> simp)))
  have txs := forall_txsPieces marks false block.listed listed
  intro c member
  have parts : c = 123 ∨ c ∈ render (fieldPieces (blockFields block)) ∨
      c ∈ render (txsPieces false block.listed) ∨ c ∈ [93, 125] := by
    simpa [blockPieces] using member
  rcases parts with rfl | inFields | inTxs | last
  · exact marks 123 (by decide)
  · exact fields c inFields
  · exact txs c inTxs
  · exact marks c ((by decide : ∀ c ∈ [93, 125], c ∈ syntaxBytes) c last)

/-- The bytes of the array of blocks, by induction on the list as for the
transactions. -/
theorem forall_blocksPieces (comma : Bool) (blocks : List Block)
    (texts : ∀ block ∈ blocks, ∀ c ∈ block.texts, property c) :
    ∀ c ∈ render (blocksPieces comma blocks), property c := by
  induction blocks generalizing comma with
  | nil => exact fun c member => absurd member List.not_mem_nil
  | cons block rest ih =>
    intro c member
    simp only [blocksPieces, render_append, List.mem_append] at member
    rcases member with (separator | object) | others
    · cases comma with
      | false => exact absurd separator List.not_mem_nil
      | true =>
        obtain rfl := List.mem_singleton.mp separator
        exact marks 44 (by decide)
    · exact forall_blockPieces marks block (texts block (by simp)) c object
    · exact ih true (fun other inRest => texts other (by simp [inRest])) c others

/-- The bytes of a serialised chain. A property of all text fields of its blocks
that syntax has as well, such as not being a newline, holds of every byte on the
wire. -/
theorem forall_chainPieces (chain : Blockchain) (texts : ∀ block ∈ chain, ∀ c ∈ block.texts, property c) :
    ∀ c ∈ render (chainPieces chain), property c := by
  have shape : render (chainPieces chain) = 123 :: 34 :: (ascii "length" ++ [34, 58]) ++
      signedDecimal chain.length ++ 44 :: 34 :: (ascii "blocks" ++ [34, 58, 91]) ++
      render (blocksPieces false chain) ++ [93, 125] := by
    simp [chainPieces, chainFields, Field.pieces]
  have opening : 123 :: 34 :: (ascii "length" ++ [34, 58]) ⊆ syntaxBytes := by decide
  have middle : 44 :: 34 :: (ascii "blocks" ++ [34, 58, 91]) ⊆ syntaxBytes := by decide
  have closing : [93, 125] ⊆ syntaxBytes := by decide
  intro c member
  simp only [shape, List.mem_append] at member
  rcases member with (((mark | number) | mark) | inBlocks) | mark
  · exact marks c (opening mark)
  · exact forall_signedDecimal marks chain.length c number
  · exact marks c (middle mark)
  · exact forall_blocksPieces marks false chain texts c inBlocks
  · exact marks c (closing mark)

end

end MiniCoin
