import MiniCoin.CutTexts

/-!
# Records that are cut off

Transactions and blocks of honest nodes, parsed from the beginnings of their texts. What is
read is the whole record exactly if nothing but closing marks was lost behind the last hash.
-/

namespace MiniCoin

open ByteStrings QuotedText Nesting

/-! ## Texts of honest nodes -/

/-- A hexadecimal digit or a capital letter. Addresses, signatures and hashes
consist of these, and so does the word COINBASE. -/
def CodeByte (c : UInt8) : Prop := isHex c = true ∨ (65 ≤ c.toNat ∧ c.toNat ≤ 90)

/-- A byte can be tested. -/
instance (c : UInt8) : Decidable (CodeByte c) := inferInstanceAs (Decidable (_ ∨ _))

/-- A transaction whose texts are addresses, signatures and hashes, with its
hash in place. -/
structure Tx.Coded (tx : Tx) : Prop where
  texts : ∀ c ∈ tx.texts, CodeByte c
  hashed : tx.txHash.bytes ≠ []

/-- A block of such texts, as mining and hashing write them. Where a text is
cut off, it must be clear which of its bytes belong to a field and which are
marks. -/
structure Block.Coded (block : Block) : Prop where
  prevHash : ∀ c ∈ block.prevHash.bytes, CodeByte c
  hash : ∀ c ∈ block.hash.bytes, CodeByte c
  txs : ∀ tx ∈ block.listed, tx.Coded
  range : block.CountInRange

/-- Such bytes have no meaning for the scanners. -/
theorem CodeByte.safe {c : UInt8} (code : CodeByte c) : SafeByte c := by
  refine ⟨?_, ?_, ?_, ?_⟩ <;>
  · rintro rfl
    exact absurd code (by decide)

/-- A transaction of such bytes is safe. -/
theorem Tx.Coded.safe {tx : Tx} (coded : tx.Coded) : tx.Safe :=
  fun c member => (coded.texts c member).safe

/-- So is a block. -/
theorem Block.Coded.safe {block : Block} (coded : block.Coded) : block.Safe where
  prevHash c member := (coded.prevHash c member).safe
  hash c member := (coded.hash c member).safe
  txs tx member := (coded.txs tx member).safe
  range := coded.range

/-- All text fields of such a block have such bytes only. -/
theorem Block.Coded.texts {block : Block} (coded : block.Coded) : ∀ c ∈ block.texts, CodeByte c :=
  (forall_block_texts block CodeByte).mpr ⟨coded.prevHash, coded.hash, fun tx member => (coded.txs tx member).texts⟩

/-- No blank, and not the letter y, which only the keys of an envelope have. So
the key `type` is found in the envelope alone. -/
def BodyByte (c : UInt8) : Prop := c ≠ 32 ∧ c ≠ 9 ∧ c ≠ 121

/-- A byte can be tested. -/
instance (c : UInt8) : Decidable (BodyByte c) := inferInstanceAs (Decidable (_ ∧ _))

/-- Such bytes may stand in the body of a record. -/
theorem CodeByte.body {c : UInt8} (code : CodeByte c) : BodyByte c := by
  refine ⟨?_, ?_, ?_⟩ <;>
  · rintro rfl
    exact absurd code (by decide)

/-- So may the bytes of the syntax. -/
theorem body_marks : ∀ c ∈ syntaxBytes, BodyByte c := by decide

/-- A body has no blanks, so the readers skip nothing in it. -/
theorem blankFree_of_body {text : List UInt8} (body : ∀ c ∈ text, BodyByte c) : BlankFree text :=
  fun c member => ⟨(body c member).1, (body c member).2.1⟩

/-! ## Transactions that are cut off -/

/-- A transaction that has a hash has read it. -/
theorem protocolDeserializeTx_hash (json : List UInt8)
    (hashed : (protocolDeserializeTx json).2.txHash.bytes ≠ []) :
    jsonGetString 65 json (ascii "tx_hash") = some (protocolDeserializeTx json).2.txHash := by
  unfold protocolDeserializeTx at hashed ⊢
  cases sender : jsonGetString addrLen json (ascii "sender") with
  | none =>
    simp only [sender] at hashed
    exact absurd rfl hashed
  | some senderText =>
  cases receiver : jsonGetString addrLen json (ascii "receiver") with
  | none =>
    simp only [sender, receiver] at hashed
    exact absurd rfl hashed
  | some receiverText =>
  cases amount : jsonGetUint64 json (ascii "amount") with
  | none =>
    simp only [sender, receiver, amount] at hashed
    exact absurd rfl hashed
  | some value =>
  simp only [sender, receiver, amount] at hashed ⊢
  cases hash : jsonGetString 65 json (ascii "tx_hash") with
  | none =>
    rw [hash] at hashed
    exact absurd rfl hashed
  | some text => rfl

/-- The hash of an object, behind its key. -/
theorem jsonFindKey_txHash (tx : Tx) (coded : tx.Coded) :
    jsonFindKey (render (txPieces tx)) (ascii "tx_hash") =
      some (34 :: (tx.txHash.bytes ++ [34, 125])) := by
  have object := txObject tx [] trivial
  rw [List.append_nil] at object
  have found := jsonFindKey_field object 5 rfl
  simp only [txFields, Piece.render, coded.safe.txHash.escape] at found
  rw [List.cons_append, List.dropWhile_cons_of_neg (by decide)] at found
  simpa using found

/-- What is left of a transaction object gives the whole transaction exactly if
it contains the whole hash. -/
theorem protocolDeserializeTx_cut (tx : Tx) (coded : tx.Coded) (cut lost : List UInt8)
    (split : cut ++ lost = render (txPieces tx)) :
    (protocolDeserializeTx cut).2 = tx ↔ lost.length ≤ 2 := by
  have body := forall_txPieces body_marks tx fun c member => (coded.texts c member).body
  rw [← split] at body
  have blankFree := blankFree_of_body body
  have object := txObject tx [] trivial
  rw [List.append_nil, ← split] at object
  have behindKey := jsonFindKey_txHash tx coded
  rw [← split] at behindKey
  have isKey : IsKey (ascii "tx_hash") := by decide
  constructor
  · intro same
    have hash := protocolDeserializeTx_hash cut (by rw [same]; exact coded.hashed)
    rw [same] at hash
    unfold jsonGetString at hash
    split at hash
    · next p found =>
      have whole := (jsonFindKey_cut cut lost _ _ isKey blankFree).mp found
      rw [behindKey] at whole
      have text : tx.txHash.bytes ++ [34, 125] = p ++ lost :=
        (List.cons.inj (Option.some.inj whole)).2
      have copied := copyString_short (65 - 1) p
      have stored : tx.txHash.bytes.length ≤ (copyString (65 - 1) p).length := by
        rw [← Option.some.inj hash]
        exact le_trans (List.length_take_le' ..) (List.takeWhile_prefix _).length_le
      have length := congrArg List.length text
      simp only [List.length_append, List.length_cons, List.length_nil] at length
      omega
    · cases hash
  · intro few
    have inside (position : Nat) (early : position ≤ 4) :
        lost.length ≤ (render (fieldPieces ((txFields tx).drop (position + 1)) ++ [])).length := by
      have key : (ascii "tx_hash").length = 7 := by decide
      refine le_trans few (le_trans ?_ (show (render (fieldPieces ((txFields tx).drop 5))).length ≤ _ from ?_))
      · simp only [txFields, Field.pieces, key, List.drop_succ_cons, List.drop_zero, fieldPieces_cons,
          fieldPieces_nil, List.cons_append, List.nil_append, render_quoted, List.length_cons,
          List.length_append]
        omega
      · rw [List.append_nil]
        interval_cases position <;> simp [txFields, Field.pieces] <;> omega
    have sender := jsonGetString_inside addrLen tx.sender object blankFree 0 rfl rfl (inside 0 (by decide))
    have receiver := jsonGetString_inside addrLen tx.receiver object blankFree 1 rfl rfl
      (inside 1 (by decide))
    have amount := jsonGetUint64_inside tx.amount object blankFree 2 rfl rfl rfl (inside 2 (by decide))
    have fee := jsonGetUint64_inside tx.fee object blankFree 3 rfl rfl rfl (inside 3 (by decide))
    have signature := jsonGetString_inside sigLen tx.signature object blankFree 4 rfl rfl
      (inside 4 (by decide))
    have txHash : jsonGetString 65 cut (ascii "tx_hash") = some tx.txHash := by
      obtain ⟨marks, closing⟩ : ∃ marks, [34, 125] = marks ++ lost := by
        have suffix : [34, 125] <:+ cut ++ lost :=
          (List.suffix_append _ _).trans ((List.suffix_cons 34 _).trans
            (jsonFindKey_suffix _ _ _ behindKey))
        obtain ⟨marks, same⟩ := List.suffix_of_suffix_length_le (List.suffix_append cut lost) suffix few
        exact ⟨marks, same.symm⟩
      have found : jsonFindKey cut (ascii "tx_hash") = some (34 :: (tx.txHash.bytes ++ marks)) := by
        rw [jsonFindKey_cut cut lost _ _ isKey blankFree, behindKey, closing]
        simp
      have bound := tx.txHash.bound
      have ends : ∀ c ∈ marks.head?, c = 34 := by
        cases marks with
        | nil => simp
        | cons mark others => simpa using (List.cons.inj closing).1.symm
      simp only [jsonGetString, found]
      rw [copyString_plain _ _ _ coded.safe.txHash.no_quote coded.safe.txHash.no_backslash (by omega)
        ends, CText.ofBytes_bytes]
    simp only at sender receiver amount fee signature
    simp only [protocolDeserializeTx, sender, receiver, amount, fee, signature, txHash,
      Option.getD_some]

/-- The array of transactions is their objects joined by commas. -/
theorem render_txsPieces (comma : Bool) (txs : List Tx) : render (txsPieces comma txs) =
    commaText comma (txs.map fun tx => render (txPieces tx)) := by
  have separator : ascii "," = [44] := by decide
  induction txs generalizing comma with
  | nil => rfl
  | cons tx rest ih => cases comma <;> simp [txsPieces, commaText, ih, separator]

/-- The text of a safe transaction is an object by itself: the braces balance at
its end, not before. -/
theorem isObject_txPieces (tx : Tx) (safe : tx.Safe) : IsObject (render (txPieces tx)) := by
  refine ⟨txInner tx, by simp [txPieces_eq, txInner], ?_⟩
  rw [← balanced_brackets, brackets_txInner, balanced_brackets]
  exact balanced_flat _ _ safe.flat

/-- What is left of a list of transactions gives all of them exactly if it
contains the whole hash of the last one. -/
theorem parseTransactions_cut (comma : Bool) (txs : List Tx) (nonempty : txs ≠ [])
    (coded : ∀ tx ∈ txs, tx.Coded) (text lost tail : List UInt8)
    (split : text ++ lost = render (txsPieces comma txs) ++ tail) :
    parseTransactions txs.length text = txs ↔ lost.length ≤ tail.length + 2 := by
  obtain ⟨others, last, rfl⟩ : ∃ others last, txs = others ++ [last] :=
    ⟨_, _, (List.dropLast_append_getLast nonempty).symm⟩
  have object (tx : Tx) (member : tx ∈ others ++ [last]) := isObject_txPieces tx (coded tx member).safe
  have codedLast := coded last (by simp)
  rw [render_txsPieces, List.map_append, List.map_cons, List.map_nil] at split
  have whole : others.map (fun tx => (protocolDeserializeTx (render (txPieces tx))).2) = others := by
    refine (List.map_congr_left fun tx member => ?_).trans (List.map_id others)
    exact (protocolDeserializeTx_cut tx (coded tx (by simp [member])) _ [] (by simp)).mpr (by simp)
  have long : 2 < (render (txPieces last)).length := by
    simp [txPieces, txFields, Field.pieces]
  have cases := objectTexts_cut comma (others.map fun tx => render (txPieces tx)) (render (txPieces last))
    text lost tail (by
      intro object' member
      obtain ⟨tx, inList, rfl⟩ := List.mem_map.mp member
      exact object tx (by simp [inList])) (object last (by simp)) split
  rw [List.length_map] at cases
  rw [List.length_append, List.length_singleton, parseTransactions_eq]
  rcases cases with ⟨start, gone, cut, length, texts⟩ | ⟨fewer, gone⟩
  · rw [texts, List.map_append, List.map_map, List.map_cons, List.map_nil]
    have read := protocolDeserializeTx_cut last codedLast start gone cut
    have first : others.map ((fun object => (protocolDeserializeTx object).2) ∘
        fun tx => render (txPieces tx)) = others := whole
    rw [first, List.append_cancel_left_eq, List.cons.injEq, and_iff_left rfl, read]
    omega
  · refine iff_of_false (fun same => ?_) (by omega)
    have lengths := congrArg List.length same
    simp only [List.length_map, List.length_append, List.length_singleton] at lengths
    omega

/-! ## Blocks that are cut off -/

/-- Slots that end with a transaction show all transactions in front of it. -/
theorem fillSlots_injective (read others : List Tx) (last : Tx) (used : last ≠ Tx.zero)
    (fits : others.length < maxTxPerBlock) (fewer : read.length ≤ others.length + 1)
    (same : fillSlots read = fillSlots (others ++ [last])) : read = others ++ [last] := by
  have full : read.length = others.length + 1 := by
    by_contra short
    have slot := congrArg (fun slots => slots[others.length]?) same
    simp only [fillSlots, Vector.getElem?_ofFn, dif_pos fits, Option.some.injEq] at slot
    have beyond : read.getD others.length Tx.zero = Tx.zero := by
      simp [show read.length ≤ others.length by omega]
    have ends : (others ++ [last]).getD others.length Tx.zero = last := by simp
    rw [beyond, ends] at slot
    exact used slot.symm
  have taken := congrArg (fun slots => slots.toList.take (others.length + 1)) same
  have readBack := fillSlots_take read (by omega)
  have listedBack := fillSlots_take (others ++ [last]) (by simpa using fits)
  rw [full] at readBack
  rw [List.length_append, List.length_singleton] at listedBack
  rwa [readBack, listedBack] at taken

/-- The transactions of a block object, behind their key. -/
theorem jsonFindKey_transactions (block : Block) :
    jsonFindKey (render (blockPieces block [])) (ascii "transactions") =
      some (91 :: (render (txsPieces false block.listed) ++ [93, 125])) := by
  have found := jsonFindKey_field (blockObject block [] (by decide)) 6 rfl
  simp only [blockFields, Piece.render, List.nil_append] at found
  rw [List.dropWhile_cons_of_neg (by decide)] at found
  simpa using found

/-- What is left of a block object gives the whole block exactly if it contains
the whole hash of the last transaction. -/
theorem protocolDeserializeBlock_cut (block : Block) (coded : block.Coded)
    (nonempty : block.listed ≠ []) (cut lost : List UInt8)
    (split : cut ++ lost = render (blockPieces block [])) :
    protocolDeserializeBlock cut = some block.compact ↔ lost.length ≤ 4 := by
  have body := forall_blockPieces body_marks block fun c member => (coded.texts c member).body
  rw [← split] at body
  have blankFree := blankFree_of_body body
  have object := blockObject block [] (by decide)
  rw [← split] at object
  have behindKey := jsonFindKey_transactions block
  rw [← split] at behindKey
  have isKey : IsKey (ascii "transactions") := by decide
  have counted := block.listed_length coded.range
  have few := block.listed_length_le
  have slots : min block.txCount.toInt.toNat maxTxPerBlock = block.listed.length := by
    simp only [maxTxPerBlock] at few ⊢
    omega
  constructor
  · intro read
    have parsed := protocolDeserializeBlock_some cut _ read
    obtain ⟨others, last, shape⟩ : ∃ others last, block.listed = others ++ [last] :=
      ⟨_, _, (List.dropLast_append_getLast nonempty).symm⟩
    have lastCoded := coded.txs last (by simp [shape])
    have used : last ≠ Tx.zero := fun zero => lastCoded.hashed (by rw [zero]; rfl)
    have length : block.listed.length = others.length + 1 := by simp [shape]
    have transactions : fillSlots ((transactionTexts cut block.txCount).map fun object =>
        (protocolDeserializeTx object).2) = fillSlots (others ++ [last]) := by
      rw [← shape]
      exact parsed.transactions.symm
    have fewer : (transactionTexts cut block.txCount).length ≤ others.length + 1 := by
      unfold transactionTexts
      split
      · exact le_trans (objectTexts_length_le _ _) (by omega)
      · simp
    have readAll := fillSlots_injective _ others last used (by simp only [maxTxPerBlock] at few ⊢; omega)
      (by rwa [List.length_map]) transactions
    unfold transactionTexts at readAll
    split at readAll
    · next start found =>
      have whole := (jsonFindKey_cut cut lost _ _ isKey blankFree).mp found
      rw [behindKey] at whole
      have array : start ++ lost = render (txsPieces false block.listed) ++ [93, 125] :=
        (List.cons.inj (Option.some.inj whole)).2.symm
      rw [← shape, ← parseTransactions_eq, slots] at readAll
      exact (parseTransactions_cut false block.listed nonempty coded.txs start lost _ array).mp readAll
    · simp at readAll
  · intro small
    have inside (position : Nat) (early : position ≤ 5) : lost.length ≤
        (render (fieldPieces ((blockFields block).drop (position + 1)) ++
          (txsPieces false block.listed ++ [.plain ([93, 125] ++ [])]))).length := by
      have key : (ascii "transactions").length = 12 := by decide
      refine le_trans small ?_
      rw [render_append, List.length_append]
      refine le_trans (le_trans ?_ (show (render (fieldPieces ((blockFields block).drop 6))).length ≤ _ from ?_))
        (Nat.le_add_right _ _)
      · simp [blockFields, Field.pieces, key]
      · interval_cases position <;> simp [blockFields, Field.pieces] <;> omega
    have indexText : decimal block.index.toNat = decimal block.index.toUInt64.toNat := by simp
    have index := jsonGetUint64_inside block.index.toUInt64 object blankFree 0 rfl
      (congrArg Piece.plain indexText) rfl (inside 0 (by decide))
    have timestamp := jsonGetUint64_signed_inside block.timestamp object blankFree 1 rfl rfl rfl
      (inside 1 (by decide))
    have prevHash := jsonGetString_inside hashHexLen block.prevHash object blankFree 2 rfl rfl
      (inside 2 (by decide))
    have nonce := jsonGetUint64_inside block.nonce object blankFree 3 rfl rfl rfl (inside 3 (by decide))
    have hash := jsonGetString_inside hashHexLen block.hash object blankFree 4 rfl rfl
      (inside 4 (by decide))
    have txCount := jsonGetInt_inside block.txCount object blankFree 5 rfl rfl rfl (inside 5 (by decide))
    obtain ⟨stamp, stampRead, stampValue⟩ := Option.map_eq_some_iff.mp timestamp
    have rest : render (fieldPieces ((blockFields block).drop 7) ++
        (txsPieces false block.listed ++ [.plain ([93, 125] ++ [])])) =
          render (txsPieces false block.listed) ++ [93, 125] := by
      simp [blockFields]
    have long : 2 ≤ (render (txsPieces false block.listed)).length := by
      obtain ⟨tx, others, shape⟩ := List.exists_cons_of_ne_nil nonempty
      simp [shape, txsPieces, txPieces, txFields, Field.pieces]
    obtain ⟨start, array, found⟩ := jsonFindKey_inside object blankFree 6 rfl (by
      rw [rest, List.length_append]
      simp only [List.length_cons, List.length_nil]
      omega)
    rw [rest] at array
    have txs := (parseTransactions_cut false block.listed nonempty coded.txs start lost _ array.symm).mpr
      small
    have transactions : jsonFindKey cut (ascii "transactions") = some (91 :: start) := found
    simp only at index stampRead prevHash nonce hash txCount
    simp only [protocolDeserializeBlock, index, stampRead, prevHash, nonce, hash, txCount, transactions,
      Option.bind_eq_bind, Option.bind_some, slots, stampValue, txs]
    simp [Block.compact]

end MiniCoin
