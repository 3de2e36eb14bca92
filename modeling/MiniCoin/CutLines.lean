import MiniCoin.CutRecords

/-!
# Lines that are cut off

A line that is longer than the buffer of `read_message` is handed on without its end. The
peer takes the whole chain from what is there exactly if nothing but closing marks was lost.
-/

namespace MiniCoin

open ByteStrings QuotedText Nesting

/-! ## Chains that are cut off -/

/-- The text of several blocks, with commas between. -/
theorem render_blocksPieces (comma : Bool) (blocks : List Block) : render (blocksPieces comma blocks) =
    commaText comma (blocks.map fun block => render (blockPieces block [])) := by
  have separator : ascii "," = [44] := by decide
  induction blocks generalizing comma with
  | nil => rfl
  | cons block rest ih => cases comma <;> simp [blocksPieces, commaText, ih, separator]

/-- A block's text is one object for the brace count, when its strings hold no
quotes, backslashes or braces. -/
theorem isObject_blockPieces (block : Block) (safe : block.Safe) :
    IsObject (render (blockPieces block [])) :=
  ⟨blockInner block, render_blockPieces block, balanced_blockInner block safe⟩

/-- Whole block objects are read. -/
theorem mapM_blockPieces (blocks : List Block) (safe : ∀ block ∈ blocks, block.Safe) :
    (blocks.map fun block => render (blockPieces block [])).mapM protocolDeserializeBlock =
      some (blocks.map Block.compact) := by
  induction blocks with
  | nil => rfl
  | cons block rest ih =>
    have here := safe block List.mem_cons_self
    have read := protocolDeserializeBlock_render block [] (by decide) here.range
      (bracesMatch_safe block.listed here.txs)
    have later := ih fun other member => safe other (List.mem_cons_of_mem block member)
    rw [List.map_cons, List.mapM_cons, read, later]
    rfl

/-- What is left of a list of blocks gives all of them exactly if it contains
the whole hash of the last transaction. -/
theorem parseBlocks_cut (comma : Bool) (others : List Block) (last : Block)
    (coded : ∀ block ∈ others ++ [last], block.Coded) (nonempty : last.listed ≠ [])
    (text lost tail : List UInt8)
    (split : text ++ lost = render (blocksPieces comma (others ++ [last])) ++ tail) :
    parseBlocks (others ++ [last]).length text = some ((others ++ [last]).map Block.compact) ↔
      lost.length ≤ tail.length + 4 := by
  have object (block : Block) (member : block ∈ others ++ [last]) :=
    isObject_blockPieces block (coded block member).safe
  have codedLast := coded last (by simp)
  have first := mapM_blockPieces others fun block member => (coded block (by simp [member])).safe
  have long : 4 < (render (blockPieces last [])).length := by
    simp [blockPieces, blockFields, Field.pieces]
    omega
  rw [render_blocksPieces, List.map_append, List.map_cons, List.map_nil] at split
  have cases := objectTexts_cut comma (others.map fun block => render (blockPieces block []))
    (render (blockPieces last [])) text lost tail (by
      intro object' member
      obtain ⟨block, inList, rfl⟩ := List.mem_map.mp member
      exact object block (by simp [inList])) (object last (by simp)) split
  rw [List.length_map] at cases
  rw [List.length_append, List.length_singleton, parseBlocks_eq]
  rcases cases with ⟨start, gone, cut, length, texts⟩ | ⟨fewer, gone⟩
  · have read := protocolDeserializeBlock_cut last codedLast nonempty start gone cut
    rw [texts, List.mapM_append, first, List.map_append, List.map_cons, List.map_nil]
    have same : (do
        let blocks ← some (others.map Block.compact)
        let rest ← [start].mapM protocolDeserializeBlock
        pure (blocks ++ rest)) = some (others.map Block.compact ++ [last.compact]) ↔
          protocolDeserializeBlock start = some last.compact := by
      rw [List.mapM_cons, List.mapM_nil]
      cases protocolDeserializeBlock start <;> simp
    rw [same, read]
    omega
  · refine iff_of_false (fun same => ?_) (by omega)
    obtain ⟨count, -⟩ := mapM_blocks_length same
    simp only [List.length_map, List.length_append, List.length_singleton] at count
    omega

/-- The blocks of a chain object, behind their key. -/
theorem jsonFindKey_blocks (chain : Blockchain) :
    jsonFindKey (render (chainPieces chain)) (ascii "blocks") =
      some (91 :: (render (blocksPieces false chain) ++ [93, 125])) := by
  have found := jsonFindKey_field (chainObject chain) 1 rfl
  simp only [chainFields, Piece.render, List.nil_append] at found
  rw [List.dropWhile_cons_of_neg (by decide)] at found
  simpa using found

/-- What is left of a chain object gives the whole chain exactly if it contains
the whole hash of the last transaction. -/
theorem protocolDeserializeChain_cut (others : List Block) (last : Block)
    (coded : ∀ block ∈ others ++ [last], block.Coded) (nonempty : last.listed ≠ [])
    (fits : (others ++ [last]).length ≤ maxBlocks) (cut lost : List UInt8)
    (split : cut ++ lost = render (chainPieces (others ++ [last]))) :
    protocolDeserializeChain cut = some ((others ++ [last]).map Block.compact) ↔ lost.length ≤ 6 := by
  have body := forall_chainPieces body_marks (others ++ [last]) fun block member c inTexts =>
    ((coded block member).texts c inTexts).body
  rw [← split] at body
  have blankFree := blankFree_of_body body
  have object := chainObject (others ++ [last])
  rw [← split] at object
  have behindKey := jsonFindKey_blocks (others ++ [last])
  rw [← split] at behindKey
  have isKey : IsKey (ascii "blocks") := by decide
  have fits' : (others ++ [last]).length ≤ 10000 := fits
  have value : (Int32.ofNat (others ++ [last]).length).toInt = (others ++ [last]).length :=
    Int32.toInt_ofNat_of_lt (by omega)
  have positive : 0 < (others ++ [last]).length := by simp
  have inRange : ¬ (((others ++ [last]).length : Int) ≤ 0 ∨
      (maxBlocks : Int) < (others ++ [last]).length) := by
    rw [maxBlocks]
    omega
  -- The length stands in front of the blocks.
  have length (start : List UInt8) (found : jsonFindKey cut (ascii "blocks") = some (91 :: start)) :
      jsonGetInt cut (ascii "length") = some (Int32.ofNat (others ++ [last]).length) ∧
        start ++ lost = render (blocksPieces false (others ++ [last])) ++ [93, 125] := by
    have whole := (jsonFindKey_cut cut lost _ _ isKey blankFree).mp found
    rw [behindKey] at whole
    have array : start ++ lost = render (blocksPieces false (others ++ [last])) ++ [93, 125] :=
      (List.cons.inj (Option.some.inj whole)).2.symm
    refine ⟨jsonGetInt_inside _ object blankFree 0 rfl (by rw [value]) rfl ?_, array⟩
    have lengths := congrArg List.length array
    simp only [List.length_append, List.length_cons, List.length_nil] at lengths
    simp [chainFields, Field.pieces]
    omega
  constructor
  · intro read
    unfold protocolDeserializeChain at read
    split at read
    · cases read
    · next counted =>
      split at read
      · cases read
      · split at read
        · next start found =>
          obtain ⟨stored, array⟩ := length start found
          rw [stored] at counted
          obtain rfl := Option.some.inj counted
          rw [value, Int.toNat_natCast] at read
          exact (parseBlocks_cut false others last coded nonempty start lost _ array).mp read
        · cases read
  · intro few
    have rest : render (fieldPieces ((chainFields (others ++ [last])).drop 2) ++
        (blocksPieces false (others ++ [last]) ++ [.plain [93, 125]])) =
          render (blocksPieces false (others ++ [last])) ++ [93, 125] := by
      simp [chainFields]
    have long : 4 ≤ (render (blocksPieces false (others ++ [last]))).length := by
      rw [render_blocksPieces, List.map_append, List.map_cons, List.map_nil]
      refine le_trans ?_ (commaText_last false _ _)
      simp [blockPieces, blockFields, Field.pieces]
      omega
    obtain ⟨start, -, found⟩ := jsonFindKey_inside object blankFree 1 rfl (by
      rw [rest, List.length_append]
      simp only [List.length_cons, List.length_nil]
      omega)
    have hit : jsonFindKey cut (ascii "blocks") = some (91 :: start) := found
    obtain ⟨stored, array⟩ := length start hit
    have blocks := (parseBlocks_cut false others last coded nonempty start lost _ array).mpr few
    simp only [protocolDeserializeChain, stored, value, if_neg inRange, hit, Int.toNat_natCast, blocks]

/-! ## Lines that are cut off -/

/-- The scan of a payload that is cut off, with the brace of the envelope behind
it. -/
theorem scanPayload_chain_cut (chain : Blockchain) (safe : ∀ block ∈ chain, block.Safe)
    (text lost : List UInt8) (split : text ++ lost = render (chainPieces chain) ++ [125]) :
    ∃ gone, scanPayload none 0 false text ++ gone = render (chainPieces chain) ∧
      gone.length = lost.length - 1 := by
  have whole : scanPayload none 0 false (render (chainPieces chain) ++ [125]) =
      render (chainPieces chain) := by
    have scanned := scanPayload_object (chainMiddle chain) (clean_chainMiddle chain)
      (inStep_chainMiddle chain safe) [125]
    have shape : render (chainPieces chain) ++ [125] =
        123 :: (render (chainMiddle chain) ++ 125 :: [125]) := by
      simp [render_chainPieces]
    rw [shape, scanned, render_chainPieces]
  have lengths := congrArg List.length split
  simp only [List.length_append, List.length_singleton] at lengths
  cases lost with
  | nil =>
    rw [List.append_nil] at split
    exact ⟨[], by rw [split, whole, List.append_nil], rfl⟩
  | cons c others =>
    simp only [List.length_cons] at lengths
    have starts := List.prefix_append text (c :: others)
    rw [split] at starts
    have inside := List.prefix_of_prefix_length_le starts (List.prefix_append _ [125]) (by omega)
    have scanned := scanPayload_cut none 0 false text (c :: others) (by rw [split, whole]; omega)
    refine ⟨_, by rw [scanned]; exact List.prefix_iff_eq_append.mp inside, ?_⟩
    simp only [List.length_drop, List.length_cons]
    omega

/-- A byte of hexadecimal digits or of a fixed text is neither a terminator nor
a blank. -/
theorem CodeByte.solid {c : UInt8} (code : CodeByte c) : c ≠ 0 ∧ c ≠ 32 ∧ c ≠ 9 := by
  refine ⟨?_, ?_, ?_⟩ <;>
  · rintro rfl
    exact absurd code (by decide)

/-- The envelope adds no such byte. -/
theorem solid_envelope (type : MsgType) (rest : List Piece)
    (solid : ∀ c ∈ render rest, c ≠ 0 ∧ c ≠ 32 ∧ c ≠ 9) :
    ∀ c ∈ render (envelopePieces type rest), c ≠ 0 ∧ c ≠ 32 ∧ c ≠ 9 := by
  have code : ∀ c ∈ signedDecimal type.code.toInt, c ≠ 0 ∧ c ≠ 32 ∧ c ≠ 9 := by
    cases type <;> decide
  have constants : ∀ c ∈ ascii "type" ++ ascii "payload" ++ [123, 34, 58, 44, 125],
      c ≠ 0 ∧ c ≠ 32 ∧ c ≠ 9 := by decide
  intro c member
  have parts : c ∈ ascii "type" ++ ascii "payload" ++ [123, 34, 58, 44, 125] ∨
      c ∈ signedDecimal type.code.toInt ∨ c ∈ render rest := by
    simp only [envelopePieces, envelopeFields, Field.pieces, fieldPieces_cons, fieldPieces_nil,
      render_plain, render_quoted, render_append, render_nil, List.mem_append, List.mem_cons,
      List.cons_append, List.nil_append, List.not_mem_nil, or_false] at member ⊢
    tauto
  rcases parts with mark | number | inRest
  · exact constants c mark
  · exact code c number
  · exact solid c inRest

/-- The line of a chain response. -/
def responseLine (chain : Blockchain) : List UInt8 :=
  render (envelopePieces .chainResponse (chainRest chain))

/-- The line of a chain response, cut in two. -/
theorem response_cut (chain : Blockchain) (coded : ∀ block ∈ chain, block.Coded) (cut lost : List UInt8)
    (split : cut ++ lost = responseLine chain) :
    BlankFree (cut ++ lost) ∧ cstr cut = cut ∧
      ObjectText (cut ++ lost) (envelopeFields .chainResponse) (chainRest chain ++ [.plain [125]]) := by
  have body : ∀ c ∈ cut ++ lost, c ≠ 0 ∧ c ≠ 32 ∧ c ≠ 9 := by
    rw [split]
    exact solid_envelope .chainResponse _ fun c member =>
      @forall_chainPieces (fun c => c ≠ 0 ∧ c ≠ 32 ∧ c ≠ 9) (by decide) chain
        (fun block member c inTexts => ((coded block member).texts c inTexts).solid) c
        (by rw [render_chainRest]; exact List.mem_cons_of_mem _ member)
  have formed : WellFormed (chainRest chain ++ [.plain [125]]) := by
    have list := wellFormed_blocksPieces false chain [.plain [93], .plain [125], .plain [125]]
      ⟨by decide, by decide, by decide, trivial⟩
    have object := wellFormed_fields _ _ (chainFields_valid chain) list
    simpa [chainRest, chainMiddle] using object
  have object : ObjectText (responseLine chain) _ _ :=
    envelopeObject .chainResponse (chainRest chain) formed
  rw [← split] at object
  exact ⟨fun c member => (body c member).2,
    cstr_eq_self cut fun member => (body 0 (List.mem_append_left lost member)).1 rfl, object⟩

/-- What is left after ten bytes is read as a chain response or not at all. -/
theorem decode_response_only (chain : Blockchain) (coded : ∀ block ∈ chain, block.Coded)
    (cut lost : List UInt8) (split : cut ++ lost = responseLine chain)
    (long : 10 ≤ cut.length) (message : Message) (read : decode cut = some message) :
    ∃ other, message = .chainResponse other := by
  obtain ⟨blankFree, clean, object⟩ := response_cut chain coded cut lost split
  have lengths := congrArg List.length split
  have type := jsonGetInt_inside MsgType.chainResponse.code object blankFree 0 rfl rfl rfl (by
    have code : (signedDecimal MsgType.chainResponse.code.toInt).length = 1 := by decide
    have key : (ascii "type").length = 4 := by decide
    simp [responseLine, envelopePieces, envelopeFields, Field.pieces, code, key] at lengths ⊢
    omega)
  simp only at type
  rw [decode, clean, protocolParseMsg] at read
  simp only [type] at read
  obtain ⟨other, -, rfl⟩ := Option.map_eq_some_iff.mp read
  exact ⟨other, rfl⟩

/-- What is left of the line of a chain response is read as the whole response
exactly if it contains the whole hash of the last transaction: seven closing
marks may be lost. -/
theorem decode_cut (others : List Block) (last : Block)
    (coded : ∀ block ∈ others ++ [last], block.Coded) (nonempty : last.listed ≠ [])
    (fits : (others ++ [last]).length ≤ maxBlocks) (cut lost : List UInt8)
    (split : cut ++ lost = responseLine (others ++ [last])) :
    decode cut = some (.chainResponse ((others ++ [last]).map Block.compact)) ↔ lost.length ≤ 7 := by
  have safe : ∀ block ∈ others ++ [last], block.Safe := fun block member => (coded block member).safe
  obtain ⟨blankFree, clean, object⟩ := response_cut (others ++ [last]) coded cut lost split
  have rest : 123 :: render (fieldPieces ((envelopeFields .chainResponse).drop 2) ++
      (chainRest (others ++ [last]) ++ [.plain [125]])) = render (chainPieces (others ++ [last])) ++ [125] := by
    rw [render_chainRest]
    simp [envelopeFields]
  -- The payload is what follows the key.
  have payload (text : List UInt8) (found : jsonFindKey cut (ascii "payload") = some text) :
      text ++ lost = render (chainPieces (others ++ [last])) ++ [125] := by
    have whole := (jsonFindKey_cut cut lost _ _ (by decide) blankFree).mp found
    have behindKey := jsonFindKey_field object 1 rfl
    simp only [Piece.render, List.nil_append] at behindKey
    rw [List.dropWhile_cons_of_neg (by decide), rest] at behindKey
    exact Option.some.inj (whole.symm.trans behindKey)
  have chain (text : List UInt8) (found : jsonFindKey cut (ascii "payload") = some text) :
      protocolDeserializeChain (scanPayload none 0 false text) =
          some ((others ++ [last]).map Block.compact) ↔ lost.length ≤ 7 := by
    obtain ⟨gone, whole, length⟩ := scanPayload_chain_cut _ safe text lost (payload text found)
    rw [protocolDeserializeChain_cut others last coded nonempty fits _ gone whole]
    omega
  constructor
  · intro read
    rw [decode, clean, protocolParseMsg] at read
    cases counted : jsonGetInt cut (ascii "type") with
    | none =>
      rw [counted] at read
      cases read
    | some type =>
      simp only [counted] at read
      split_ifs at read with newBlock newTx request response ping
      · obtain ⟨block, -, same⟩ := Option.map_eq_some_iff.mp read
        cases same
      · split at read <;> cases read
      · cases read
      · obtain ⟨read', parsed, same⟩ := Option.map_eq_some_iff.mp read
        obtain rfl := Message.chainResponse.inj same
        obtain ⟨scanned, found, parsed⟩ := Option.bind_eq_some_iff.mp parsed
        obtain ⟨text, hit, rfl⟩ := Option.map_eq_some_iff.mp found
        exact (chain text hit).mp parsed
      · cases read
  · intro few
    have long : 6 < (render (chainRest (others ++ [last]))).length := by
      simp [chainRest, chainMiddle, chainFields, Field.pieces]
      omega
    have type := jsonGetInt_inside MsgType.chainResponse.code object blankFree 0 rfl rfl rfl (by
      simp [envelopeFields, Field.pieces]
      omega)
    obtain ⟨behind, -, found⟩ := jsonFindKey_inside object blankFree 1 rfl (by
      simp [envelopeFields]
      omega)
    have parsed := (chain _ found).mpr few
    have payload : jsonFindKey cut (ascii "payload") = _ := found
    simp only at type
    rw [decode, clean, protocolParseMsg]
    simp only [type, payload, Option.map_some, Option.bind_some, parsed]
    rfl

/-- A text without the letter that only the keys of an envelope have is no
message. -/
theorem decode_headless (raw : List UInt8) (absent : 121 ∉ raw) : decode raw = none := by
  have noHit (pattern : List UInt8) (letter : 121 ∈ pattern) : strstr (cstr raw) pattern = none := by
    cases hit : strstr (cstr raw) pattern with
    | none => rfl
    | some found =>
      have inText := (strstr_suffix _ _ _ hit).subset ((strstr_starts _ _ _ hit).subset letter)
      exact absurd (mem_cstr raw 121 inText) absent
  have noType : jsonGetInt (cstr raw) (ascii "type") = none := by
    rw [jsonGetInt, jsonFindKey, noHit _ (by decide), noHit _ (by decide)]
    rfl
  rw [decode, protocolParseMsg, noType]
  rfl

end MiniCoin
