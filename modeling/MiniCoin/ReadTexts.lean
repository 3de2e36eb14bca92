import MiniCoin.MessageCodec

/-!
# Where the texts of a message come from

The parsers copy: every byte of a text field of a message that `handle_message` reads
stands in the line. So messages from lines, which end at a newline, contain none.
-/

namespace MiniCoin

open ByteStrings QuotedText Nesting

/-! ## Values -/

/-- What `strstr` returns is the end of its text. -/
theorem strstr_suffix (text pattern found : List UInt8) (hit : strstr text pattern = some found) :
    found <:+ text := by
  induction text with
  | nil =>
    rw [strstr] at hit
    split at hit
    · exact Option.some.inj hit ▸ List.suffix_refl _
    · simp at hit
  | cons c rest ih =>
    rw [strstr] at hit
    split at hit
    · exact Option.some.inj hit ▸ List.suffix_refl _
    · exact (ih hit).trans (List.suffix_cons c rest)

/-- So is what `json_find_key` returns: it only moves forward. -/
theorem jsonFindKey_suffix (json key found : List UInt8) (hit : jsonFindKey json key = some found) :
    found <:+ json := by
  have colon (p here : List UInt8) (suffix : p <:+ json) (stop : strchr 58 p = some here) :
      (here.drop 1).dropWhile (fun c => c == 32 || c == 9) <:+ json := by
    obtain ⟨-, -, inside⟩ := strchr_some 58 p here stop
    exact (((List.dropWhile_suffix _).trans (List.drop_suffix 1 here)).trans inside).trans suffix
  unfold jsonFindKey at hit
  cases first : strstr json (34 :: (key ++ [34, 58])) with
  | some p =>
    cases stop : strchr 58 p with
    | none => simp [first, stop] at hit
    | some here =>
      simp only [first, stop, Option.some.injEq] at hit
      rw [← hit]
      exact colon p here (strstr_suffix _ _ _ first) stop
  | none =>
    cases second : strstr json (34 :: (key ++ [34, 32, 58])) with
    | none => simp [first, second] at hit
    | some p =>
      cases stop : strchr 58 p with
      | none => simp [first, second, stop] at hit
      | some here =>
        simp only [first, second, stop, Option.some.injEq] at hit
        rw [← hit]
        exact colon p here (strstr_suffix _ _ _ second) stop

/-- A copied string drops backslashes and cuts, but writes no byte that it has
not read. -/
theorem copyString_subset (room : Nat) (text : List UInt8) : copyString room text ⊆ text := by
  fun_induction copyString room text with
  | case1 text => exact List.nil_subset _
  | case2 room => exact List.nil_subset _
  | case3 room rest => exact List.nil_subset _
  | case4 room => exact List.Subset.refl _
  | case5 room d tail noQuote ih =>
    exact List.Subset.trans (List.cons_subset_cons d ih) (List.subset_cons_self _ _)
  | case6 room c rest noQuote noBackslash ih => exact List.cons_subset_cons c ih

/-- A string value is copied from the text. -/
theorem jsonGetString_subset (size : Nat) [NeZero size] (json key : List UInt8) (value : CText size)
    (read : jsonGetString size json key = some value) : value.bytes ⊆ json := by
  unfold jsonGetString at read
  split at read
  · next p found =>
    obtain rfl := Option.some.inj read
    intro c member
    have inside := copyString_subset _ _ (CText.mem_ofBytes _ c member)
    exact (jsonFindKey_suffix json key _ found).subset (List.mem_cons_of_mem _ inside)
  · simp at read

/-- So is a value with a default. -/
theorem jsonGetString_getD (size : Nat) [NeZero size] (json key : List UInt8) :
    ((jsonGetString size json key).getD CText.empty).bytes ⊆ json := by
  cases read : jsonGetString size json key with
  | none => exact List.nil_subset _
  | some value => exact jsonGetString_subset size json key value read

/-! ## Transactions -/

/-- The texts of a transaction are within a text if its four fields are. -/
theorem texts_subset (tx : Tx) (text : List UInt8) (sender : tx.sender.bytes ⊆ text)
    (receiver : tx.receiver.bytes ⊆ text) (signature : tx.signature.bytes ⊆ text)
    (txHash : tx.txHash.bytes ⊆ text) : tx.texts ⊆ text := by
  simp only [Tx.texts, List.append_subset]
  exact ⟨⟨⟨sender, receiver⟩, signature⟩, txHash⟩

/-- The fields of a parsed transaction hold bytes of its object only. -/
theorem protocolDeserializeTx_subset (json : List UInt8) :
    (protocolDeserializeTx json).2.texts ⊆ json := by
  have nothing : ([] : List UInt8) ⊆ json := List.nil_subset _
  unfold protocolDeserializeTx
  cases sender : jsonGetString addrLen json (ascii "sender") with
  | none => exact nothing
  | some senderText =>
    have fromSender := jsonGetString_subset _ _ _ _ sender
    cases receiver : jsonGetString addrLen json (ascii "receiver") with
    | none => exact texts_subset _ _ fromSender nothing nothing nothing
    | some receiverText =>
      have fromReceiver := jsonGetString_subset _ _ _ _ receiver
      cases jsonGetUint64 json (ascii "amount") with
      | none => exact texts_subset _ _ fromSender fromReceiver nothing nothing
      | some amount =>
        exact texts_subset _ _ fromSender fromReceiver (jsonGetString_getD _ _ _)
          (jsonGetString_getD _ _ _)

/-- So do those of all transactions of an array, by induction on the slots. -/
theorem parseTransactions_subset (slots : Nat) (text : List UInt8) :
    ∀ tx ∈ parseTransactions slots text, tx.texts ⊆ text := by
  induction slots generalizing text with
  | zero => simp [parseTransactions]
  | succ slots ih =>
    intro tx member
    rw [parseTransactions] at member
    cases found : strchr 123 text with
    | none => simp [found] at member
    | some objStart =>
      obtain ⟨-, -, inside⟩ := strchr_some 123 text objStart found
      have split := matchBraces_split 0 objStart
      have object : (matchBraces 0 objStart).1 ⊆ objStart := fun c here => by
        rw [← split]
        exact List.mem_append_left _ here
      have left : (matchBraces 0 objStart).2 ⊆ objStart := fun c here => by
        rw [← split]
        exact List.mem_append_right _ here
      simp only [found, List.mem_cons] at member
      rcases member with rfl | later
      · exact List.Subset.trans (protocolDeserializeTx_subset _) (List.Subset.trans object inside.subset)
      · exact List.Subset.trans (ih _ tx later) (List.Subset.trans left inside.subset)

/-- A slot holds a parsed transaction or has been left zero. -/
theorem mem_fillSlots (txs : List Tx) (tx : Tx) (member : tx ∈ (fillSlots txs).toList) :
    tx ∈ txs ∨ tx = Tx.zero := by
  simp only [fillSlots, Vector.toList_ofFn, List.mem_ofFn] at member
  obtain ⟨slot, rfl⟩ := member
  rcases Nat.lt_or_ge slot.val txs.length with inside | outside
  · exact Or.inl (by simp [inside])
  · exact Or.inr (by simp [outside])

/-! ## Blocks -/

/-- The texts of a block that is read stand in what was read. -/
theorem protocolDeserializeBlock_subset (json : List UInt8) (block : Block)
    (read : protocolDeserializeBlock json = some block) :
    block.prevHash.bytes ⊆ json ∧ block.hash.bytes ⊆ json ∧ ∀ tx ∈ block.listed, tx.texts ⊆ json := by
  simp only [protocolDeserializeBlock, Option.bind_eq_bind, Option.bind_eq_some_iff,
    Option.pure_def, Option.some.injEq] at read
  obtain ⟨index, -, timestamp, -, prevHash, fromPrev, nonce, -, hash, fromHash, txCount, -, rfl⟩ := read
  refine ⟨jsonGetString_subset _ _ _ _ fromPrev, jsonGetString_subset _ _ _ _ fromHash, ?_⟩
  intro tx member
  have slot := List.mem_of_mem_take member
  rcases mem_fillSlots _ tx slot with parsed | rfl
  · split at parsed
    · next txsStart found =>
      have inside := parseTransactions_subset _ _ tx parsed
      exact List.Subset.trans inside (List.Subset.trans (List.subset_cons_self _ _)
        (jsonFindKey_suffix _ _ _ found).subset)
    · simp at parsed
  · exact List.nil_subset _

/-- The payload is cut out of the line. -/
theorem scanPayload_subset (prev : Option UInt8) (depth : Int) (inString : Bool) (text : List UInt8) :
    scanPayload prev depth inString text ⊆ text := by
  induction text generalizing prev depth inString with
  | nil => exact List.Subset.refl _
  | cons c rest ih =>
    have either (test : Prop) [Decidable test] (later : List UInt8) (inRest : later ⊆ rest) :
        (if test then c :: later else [c]) ⊆ c :: rest := by
      split
      · exact List.cons_subset_cons c inRest
      · exact List.cons_subset_cons c (List.nil_subset rest)
    exact either _ _ (ih _ _ _)

/-- So is the payload of an envelope. -/
theorem protocolParseMsg_subset (json payload : List UInt8) (type : Int32)
    (parsed : protocolParseMsg json = (type, some payload)) : payload ⊆ json := by
  unfold protocolParseMsg at parsed
  split at parsed
  · simp at parsed
  · obtain ⟨p, found, rfl⟩ := Option.map_eq_some_iff.mp (Prod.mk.inj parsed).2
    exact List.Subset.trans (scanPayload_subset _ _ _ _) (jsonFindKey_suffix _ _ _ found).subset

/-! ## Lines -/

/-- The payload that a message was read from. -/
def ReadFrom (line : List UInt8) : Message → Prop
  | .newBlock block => ∃ payload ⊆ line, protocolDeserializeBlock payload = some block
  | .newTx tx => ∃ payload ⊆ line, protocolDeserializeTx payload = (0, tx)
  | .chainResponse chain => ∃ payload ⊆ line, protocolDeserializeChain payload = some chain
  | .requestChain | .ping | .pong => True

/-- What `handle_message` reads from a line has its texts from the line,
whatever its type. -/
theorem decode_readFrom (line : List UInt8) (message : Message) (read : decode line = some message) :
    ReadFrom line message := by
  unfold decode at read
  rcases parsed : protocolParseMsg (cstr line) with ⟨type, payload⟩
  have inLine (text : List UInt8) (some : payload = some text) : text ⊆ line := by
    rw [some] at parsed
    exact List.Subset.trans (protocolParseMsg_subset _ _ _ parsed) fun c member => mem_cstr line c member
  simp only [parsed] at read
  split_ifs at read with newBlock newTx request response ping
  · obtain ⟨block, found, rfl⟩ := Option.map_eq_some_iff.mp read
    obtain ⟨text, here, fields⟩ := Option.bind_eq_some_iff.mp found
    exact ⟨text, inLine text here, fields⟩
  · split at read
    · next tx found =>
      obtain rfl := Option.some.inj read
      obtain ⟨text, here, fields⟩ := Option.map_eq_some_iff.mp found
      exact ⟨text, inLine text here, fields⟩
    · cases read
  · obtain rfl := Option.some.inj read
    trivial
  · obtain ⟨chain, found, rfl⟩ := Option.map_eq_some_iff.mp read
    obtain ⟨text, here, fields⟩ := Option.bind_eq_some_iff.mp found
    exact ⟨text, inLine text here, fields⟩
  · obtain rfl := Option.some.inj read
    trivial

/-- A block read from one line can be sent on in one line. Relays depend on
this. -/
theorem oneLine_of_deserializeBlock (payload : List UInt8) (block : Block) (oneLine : 10 ∉ payload)
    (read : protocolDeserializeBlock payload = some block) : block.OneLine := by
  obtain ⟨prevHash, hash, txs⟩ := protocolDeserializeBlock_subset payload block read
  exact ⟨fun here => oneLine (prevHash here), fun here => oneLine (hash here),
    fun tx member here => oneLine (txs tx member here)⟩

/-- The blocks of a chain are read from parts of the text. -/
theorem oneLine_of_parseBlocks (slots : Nat) (text : List UInt8) (blocks : List Block)
    (oneLine : 10 ∉ text) (read : parseBlocks slots text = some blocks) :
    ∀ block ∈ blocks, block.OneLine := by
  induction slots generalizing text blocks with
  | zero =>
    obtain rfl := Option.some.inj read
    simp
  | succ slots ih =>
    rw [parseBlocks] at read
    cases found : strchr 123 text with
    | none =>
      rw [found] at read
      obtain rfl := Option.some.inj read
      simp
    | some objStart =>
      obtain ⟨-, -, inside⟩ := strchr_some 123 text objStart found
      have split := matchBraces_split 0 objStart
      have object : 10 ∉ (matchBraces 0 objStart).1 := fun here =>
        oneLine (inside.subset (split ▸ List.mem_append_left _ here))
      have left : 10 ∉ (matchBraces 0 objStart).2 := fun here =>
        oneLine (inside.subset (split ▸ List.mem_append_right _ here))
      simp only [found] at read
      split at read
      · cases read
      · next block parsed =>
        obtain ⟨others, later, rfl⟩ := Option.map_eq_some_iff.mp read
        intro other member
        rcases List.mem_cons.mp member with rfl | inOthers
        · exact oneLine_of_deserializeBlock _ _ object parsed
        · exact ih _ others left later other inOthers

/-- No text field of the message contains a newline. -/
def Message.OneLine : Message → Prop
  | .newBlock block => block.OneLine
  | .newTx tx => tx.OneLine
  | .chainResponse chain => ∀ block ∈ chain, block.OneLine
  | .requestChain | .ping | .pong => True

/-- A message that is read from a line without newlines contains none. -/
theorem oneLine_of_decode (line : List UInt8) (message : Message) (oneLine : 10 ∉ line)
    (read : decode line = some message) : message.OneLine := by
  have source := decode_readFrom line message read
  cases message with
  | newBlock block =>
    obtain ⟨payload, inLine, fields⟩ := source
    exact oneLine_of_deserializeBlock payload block (fun here => oneLine (inLine here)) fields
  | newTx tx =>
    obtain ⟨payload, inLine, fields⟩ := source
    have texts := protocolDeserializeTx_subset payload
    rw [fields] at texts
    exact fun here => oneLine (inLine (texts here))
  | chainResponse chain =>
    obtain ⟨payload, inLine, fields⟩ := source
    have within : 10 ∉ payload := fun here => oneLine (inLine here)
    unfold protocolDeserializeChain at fields
    split at fields
    · cases fields
    · split at fields
      · cases fields
      · split at fields
        · next blocksStart found =>
          refine oneLine_of_parseBlocks _ blocksStart chain (fun here => within ?_) fields
          exact (jsonFindKey_suffix _ _ _ found).subset (List.mem_cons_of_mem _ here)
        · cases fields
  | requestChain | ping | pong => trivial

end MiniCoin
