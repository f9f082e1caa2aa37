import WalletWire.Proofs.Cell.Tree
import WalletWire.Proofs.Request.Frame

/-!
# Chains, requests and their trees

Without a limit, a chain is read from just the tree that is written for its messages
(`ActionChain.exact_chain`), and a request from just the tree that is written for it
(`SignedRequest.exact_codec`).  A chain that can be read has been a chain of cells all along, so
each of its links can be referred to again and no depth stands in the way of writing it.
`ActionChain.Spells` says what is in its nodes, and leaves no place for anything else.
-/

namespace WalletWire

/-! ## Chains -/

namespace ActionChain

/-- The chain with this head has a node with tag, mode and two references for each message, and then
a node with nothing. -/
inductive Spells : Cell → List Outgoing → Prop where
  | nil {head : Cell} : head.Holds [] [] → Spells head []
  | cons {head next : Cell} {outgoing : Outgoing} {rest : List Outgoing} :
      head.Holds (nodeBits outgoing.mode) [next, outgoing.message] → Spells next rest →
      Spells head (outgoing :: rest)

theorem encode_ok_iff_spells {head : Cell} {messages : List Outgoing} :
    encode messages = .ok head ↔ Spells head messages := by
  induction messages generalizing head with
  | nil =>
    rw [encode_nil_ok_iff]
    constructor
    · exact .nil
    · intro spelled
      cases spelled
      assumption
  | cons outgoing rest ih =>
    rw [encode_cons_ok_iff]
    constructor
    · rintro ⟨next, written, held⟩
      exact .cons held (ih.1 written)
    · intro spelled
      cases spelled with
      | cons held others => exact ⟨_, ih.2 others, held⟩

theorem decode_none_iff_encode (head : Cell) (messages : List Outgoing) :
    decode none head = .ok messages ↔ encode messages = .ok head := by
  rw [decode_ok_iff]
  exact and_iff_left nofun

/-- A chain is read from just the tree that is written for its messages.  So no chain is written for
two lists, a cell can be read just when it is written for some list, the nodes hold the messages in
the order of the list, and what was read can always be written again. -/
theorem exact_chain : ExactCodec encode (decode none) ∧
    (∀ head messages messages', encode messages = .ok head → encode messages' = .ok head →
      messages = messages') ∧
    (∀ head, (∃ messages, decode none head = .ok messages) ↔
      ∃ messages written, encode messages = .ok written ∧ written.tree = head.tree) ∧
    (∀ head messages, decode none head = .ok messages →
      Spells head messages ∧ ∃ written, encode messages = .ok written) := by
  have exact := ExactCodec.of_ok_iff decode_none_iff_encode
  refine ⟨exact, ?_, fun head => exists_congr (exact head), ?_⟩
  · intro head messages messages' written written'
    have read := exact.decode_of_encode written
    exact Except.ok.inj (read.symm.trans (exact.decode_of_encode written'))
  · intro head messages decoded
    have written := (decode_none_iff_encode head messages).1 decoded
    exact ⟨encode_ok_iff_spells.1 written, head, written⟩

/-- The messages of a chain may look like nodes themselves. -/
theorem exact_chain_nested : ∃ node chain,
    encode [⟨0, .empty⟩] = .ok node ∧ encode [⟨1, node⟩, ⟨2, node⟩] = .ok chain ∧
    decode none node = .ok [⟨0, .empty⟩] ∧ decode none chain = .ok [⟨1, node⟩, ⟨2, node⟩] ∧
    Spells chain [⟨1, node⟩, ⟨2, node⟩] := by
  obtain ⟨node, chain, inner, outer⟩ : ∃ node chain, encode [⟨0, .empty⟩] = .ok node ∧
    encode [⟨1, node⟩, ⟨2, node⟩] = .ok chain := ⟨_, _, rfl, rfl⟩
  obtain ⟨exact, -, -, in_order⟩ := exact_chain
  have decoded := exact.decode_of_encode outer
  exact ⟨node, chain, inner, outer, exact.decode_of_encode inner, decoded,
    (in_order chain _ decoded).1⟩

end ActionChain

/-! ## Requests -/

namespace SignedRequest

variable {request : SignedRequest} {body : Cell}

theorem decode_none_ok_iff (body : Cell) (request : SignedRequest) :
    decode none body = .ok request ↔ request.encode = .ok body := by
  rw [decode_ok_iff]
  exact and_iff_left nofun

/-- Nothing is in the body but the fields, the signature and the chain, and nothing is in the chain
but the messages. -/
theorem holds_of_decode (decoded : decode none body = .ok request) : ∃ chain,
    body.Holds (request.fieldBits ++ request.signature.bits) [chain] ∧
      ActionChain.Spells chain request.messages := by
  obtain ⟨chain, written, held⟩ := encode_ok_iff.1 ((decode_none_ok_iff _ _).1 decoded)
  exact ⟨chain, held, ActionChain.encode_ok_iff_spells.1 written⟩

/-- A request is read from just the tree that is written for it.  So two bodies with one request
have one tree, a body with a request has place for nothing else, and it can always be written
again. -/
theorem exact_codec : ExactCodec encode (decode none) ∧
    (∀ body body' request, decode none body = .ok request → decode none body' = .ok request →
      body.tree = body'.tree) ∧
    (∀ body request, decode none body = .ok request →
      (∃ chain, body.Holds (request.fieldBits ++ request.signature.bits) [chain] ∧
        ActionChain.Spells chain request.messages) ∧
      ∃ written, request.encode = .ok written) := by
  have exact := ExactCodec.of_ok_iff decode_none_ok_iff
  refine ⟨exact, fun body body' request => exact.tree_eq, fun body request decoded => ?_⟩
  exact ⟨holds_of_decode decoded, body, (decode_none_ok_iff _ _).1 decoded⟩

/-- An internal request for two messages. -/
def twoActions : SignedRequest where
  channel := .internal
  walletId := .replicate 10 255
  validUntil := 1
  seqno := 2
  flag := true
  signature := .blank
  messages := [⟨3, .empty⟩, ⟨255, .empty⟩]

set_option maxRecDepth 4000 in
theorem exact_codec_twoActions : ∃ body, twoActions.encode = .ok body ∧
    decode none body = .ok twoActions ∧
    (∀ body', decode none body' = .ok twoActions → body.tree = body'.tree) ∧
    ∃ chain, body.refs = [chain] ∧ ActionChain.Spells chain twoActions.messages := by
  obtain ⟨body, written⟩ : ∃ body, twoActions.encode = .ok body := ⟨_, rfl⟩
  obtain ⟨exact, one_tree, nothing_else⟩ := exact_codec
  have decoded : decode none body = .ok twoActions := exact.decode_of_encode written
  obtain ⟨⟨chain, held, spelled⟩, -⟩ := nothing_else body twoActions decoded
  exact ⟨body, written, decoded, fun body' => one_tree body body' twoActions decoded,
    chain, held.refs_eq, spelled⟩

end SignedRequest

end WalletWire
