import ResourceDistribution.Node.Serving
import ResourceDistribution.Node.TransferWorker

/-!
# The peer server

`peer_server.rs` answers a request for a block with the block or with a text that says why there is
none, and `fetch_block` takes the body of an answer without an error status. A node that shares some
contents gives to whoever asks for one of their blocks that very block (`reply_of_shared`).
-/

open Fallible

namespace Node

/-! ### Answers -/

/-- What the peer server is started with. -/
structure PeerServerState where
  shareDir : FileSystem
  blockSize : Nat

/-- An answer. -/
structure PeerResponse where
  status : Nat
  headers : List (String × String)
  body : List UInt8

/-- Whether a character may stand in `HeaderValue::from_str`. -/
def isHeaderChar (c : Char) : Bool :=
  (0x20 ≤ c.toNat && c.toNat < 0x7F) || c.toNat = 0x09

/-- `HeaderValue::from_str(s).unwrap_or_else(|_| HeaderValue::from_static(""))`. -/
def headerValue (s : String) : String := if s.toList.all isHeaderChar then s else ""

/-- `text_response(status, message)`. -/
def textResponse (status : Nat) (message : String) : PeerResponse where
  status := status
  headers := [("content-type", "text/plain; charset=utf-8")]
  body := utf8 message

/-- `block_response(block)`. -/
def blockResponse (block : LocalBlockData) : PeerResponse where
  status := 200
  headers := [
    ("content-type", "application/octet-stream"),
    ("x-file-hash", headerValue block.fileHash),
    ("x-block-index", headerValue (toString block.blockIndex)),
    ("x-block-hash", headerValue block.blockHash),
    ("x-block-size", headerValue (toString block.size))]
  body := block.bytes

/-- What `fetch_block` makes of an answer: `error_for_status` and `bytes`. -/
def PeerResponse.reply (response : PeerResponse) : Reply :=
  if 400 ≤ response.status ∧ response.status < 600 then .failed .status else .body response.body

/-- A text with an error status is no block. -/
theorem reply_textResponse {status : Nat} (h : 400 ≤ status ∧ status < 600) (message : String) :
  (textResponse status message).reply = .failed .status
  := if_pos h

/-- A digest is a header. -/
theorem headerValue_of_isDigest {s : String} (h : IsDigest s) :
  headerValue s = s
  := by
  have hdigits : hexDigits.all isHeaderChar = true := by rfl
  apply if_pos
  rw [List.all_eq_true]
  intro c hc
  apply List.all_eq_true.mp hdigits c (h.2 c hc)

/-- A number is a header. -/
theorem headerValue_toString (n : Nat) :
  headerValue (toString n) = toString n
  := by
  apply if_pos
  rw [List.all_eq_true]
  intro c hc
  have hmem : c ∈ Nat.toDigits 10 n := by simpa [toString, Nat.repr] using hc
  have hdigit := Nat.isDigit_of_mem_toDigits (by decide) (by decide) hmem
  simp only [Char.isDigit, Bool.and_eq_true, decide_eq_true_eq] at hdigit
  have hlow : 0x30 ≤ c.toNat := hdigit.1
  have hhigh : c.toNat ≤ 0x39 := hdigit.2
  simp only [isHeaderChar, Bool.or_eq_true, Bool.and_eq_true, decide_eq_true_eq]
  omega

section Sha256

variable [Sha256]

/-- `get_block(state, query)`. -/
def PeerServerState.getBlock (state : PeerServerState) (fileHash : String) (blockIndex : Nat) :
    PeerResponse :=
  match state.shareDir.readBlockByHash state.blockSize fileHash blockIndex with
  | .ok (some block) => blockResponse block
  | .ok none => textResponse 404 "block not found"
  | .error e => textResponse 500 e

/-- What a block that is read says of itself. -/
structure BlockSpec (fs : FileSystem) (fileHash : String) (blockIndex : Nat)
    (block : LocalBlockData) : Prop where
  fileHash_digest : IsDigest fileHash
  bytes_mem : block.bytes ∈ fs.parts
  block_eq : block = ⟨fileHash, blockIndex, Sha256.hex block.bytes, block.bytes.length, block.bytes⟩

/-- A block that is read is the one that is asked for, and a part of a shared file. -/
theorem spec_of_readBlockByHash {fs : FileSystem} {blockSize blockIndex : Nat} {fileHash : String}
    {block : LocalBlockData}
    (h : fs.readBlockByHash blockSize fileHash blockIndex = .ok (some block)) :
  BlockSpec fs fileHash blockIndex block
  := by
  unfold FileSystem.readBlockByHash at h
  split at h
  · rename_i root readable entries hdir
    have hroot : fs.root = root := by rw [FileSystem.root, hdir]
    obtain ⟨index, hscan, h⟩ := bind_eq_ok.mp h
    split at h
    · simp [pure, Except.pure] at h
    · rename_i resource hresource
      have hhash : resource.fileHash = fileHash := by simpa using List.find?_some hresource
      obtain ⟨-, -, -, hresources⟩ := scanShareDir_spec hscan
      have hmem := List.mem_of_find?_eq_some hresource
      rw [hresources] at hmem
      obtain ⟨path, hpath, rfl⟩ := List.mem_map.mp hmem
      split at h
      · simp [pure, Except.pure] at h
      · dsimp only at h
        split at h
        · simp at h
        · simp at h
        · simp at h
        · rename_i served hserved
          split at h
          · simp at h
          · rename_i bytes hread
            simp only [pure, Except.pure, Except.ok.injEq, Option.some.injEq] at h
            subst h
            obtain ⟨htake, -⟩ := readExact_eq_some_iff.mp hread
            constructor
            · rw [← hhash]
              apply Sha256.hex_digest
            · use path, hpath, served
              constructor
              · right
                rw [FileSystem.servedPath, hroot]
                exact hserved
              · rw [← htake]
                exact (List.take_prefix _ _).isInfix.trans (List.drop_suffix _ _).isInfix
            · rfl
  · obtain ⟨_, -, h⟩ := bind_eq_ok.mp h
    simp at h
  · simp at h
  · simp at h

/-- What the answer to a request for a block is. -/
theorem getBlock_cases (state : PeerServerState) (fileHash : String) (blockIndex : Nat) :
  (∃ bytes, IsDigest fileHash ∧
    state.shareDir.readBlockByHash state.blockSize fileHash blockIndex
      = .ok (some ⟨fileHash, blockIndex, Sha256.hex bytes, bytes.length, bytes⟩) ∧
    state.getBlock fileHash blockIndex = {
      status := 200
      headers := [
        ("content-type", "application/octet-stream"),
        ("x-file-hash", fileHash),
        ("x-block-index", toString blockIndex),
        ("x-block-hash", Sha256.hex bytes),
        ("x-block-size", toString bytes.length)]
      body := bytes }) ∨
  (state.shareDir.readBlockByHash state.blockSize fileHash blockIndex = .ok none ∧
    state.getBlock fileHash blockIndex = textResponse 404 "block not found") ∨
  ∃ e, state.shareDir.readBlockByHash state.blockSize fileHash blockIndex = .error e ∧
    state.getBlock fileHash blockIndex = textResponse 500 e
  := by
  rw [PeerServerState.getBlock]
  cases hread : state.shareDir.readBlockByHash state.blockSize fileHash blockIndex with
  | error e => right; right; exact ⟨e, rfl, rfl⟩
  | ok block? =>
      cases block? with
      | none => right; left; exact ⟨rfl, rfl⟩
      | some block =>
          left
          obtain ⟨hdigest, -, hblock⟩ := spec_of_readBlockByHash hread
          use block.bytes, hdigest
          rw [← hblock]
          constructor
          · rfl
          · dsimp only
            rw [hblock]
            simp only [blockResponse, headerValue_of_isDigest hdigest,
              headerValue_of_isDigest (Sha256.hex_digest _), headerValue_toString]

/-- A reply has the bytes of a block exactly when the block is read. -/
theorem reply_getBlock_eq_body_iff {state : PeerServerState} {fileHash : String} {blockIndex : Nat}
    {bytes : List UInt8} :
  (state.getBlock fileHash blockIndex).reply = .body bytes ↔
    state.shareDir.readBlockByHash state.blockSize fileHash blockIndex
      = .ok (some ⟨fileHash, blockIndex, Sha256.hex bytes, bytes.length, bytes⟩)
  := by
  obtain ⟨bytes', -, hread, hanswer⟩ | ⟨hread, hanswer⟩ | ⟨e, hread, hanswer⟩ :=
    getBlock_cases state fileHash blockIndex
  · rw [hread, hanswer]
    simp only [PeerResponse.reply, Except.ok.injEq, Option.some.injEq]
    constructor
    · intro h
      rw [if_neg (by decide)] at h
      rw [Reply.body.inj h]
    · intro h
      rw [if_neg (by decide), (LocalBlockData.mk.inj h).2.2.2.2]
  · rw [hread, hanswer, reply_textResponse (by decide)]
    simp
  · rw [hread, hanswer, reply_textResponse (by decide)]
    simp

/-- A node that shares some contents, whose name leads back to them and which it reads in blocks,
replies to a request for a block of them with the block. -/
theorem reply_of_shared {fs : FileSystem} {root : OsString} {blockSize : Nat}
    {index : ResourceIndex} (hscan : fs.scanShareDir root blockSize = .ok index)
    (hcollision : NoCollision fs.parts) {path : List OsString} (hpath : path ∈ fs.files)
    (hleads : fs.LeadsBack (fs.contentAt path))
    (hread : fs.ReadsInBlocks blockSize (fs.contentAt path))
    {i : Nat} (hi : i < Cut.count blockSize (fs.contentAt path).length) :
  ((PeerServerState.mk fs blockSize).getBlock (Sha256.hex (fs.contentAt path)) i).reply
    = .body (Cut.block blockSize (fs.contentAt path) i)
  := by
  obtain ⟨hb, -⟩ := scanShareDir_spec hscan
  obtain ⟨first, served, hfirst, hserved, hprefix⟩ := hleads
  have hsame : fs.contentAt first = fs.contentAt path := by
    simpa using List.find?_some hfirst
  have hblocks := hread first (List.mem_of_find?_eq_some hfirst) hsame
  rw [FileSystem.ReadsBlocks, hsame, ← readChunks_eq_blocks_iff hb] at hblocks
  have hchunk : (readChunks (fs.reads (fs.fullPath first)) blockSize (fs.contentAt path))[i]?
      = some (Cut.block blockSize (fs.contentAt path) i) := by
    rw [hblocks, List.getElem?_eq_getElem (by rwa [Cut.length_blocks]), Cut.getElem_blocks]
  rw [reply_getBlock_eq_body_iff, readBlockByHash_eq hscan hcollision hpath hfirst]
  use Cut.block blockSize (fs.contentAt path) i, served, Cut.block blockSize (fs.contentAt path) i,
    hchunk, hserved
  constructor
  · apply readExact_eq_some_iff.mpr
    exact ⟨Cut.take_drop_of_prefix hprefix, rfl⟩
  · rfl

end Sha256

end Node
