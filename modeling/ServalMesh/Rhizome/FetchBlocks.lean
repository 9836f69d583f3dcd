import ServalMesh.Rhizome.Read
import ServalMesh.Rhizome.WriteShape

/-!
# Fetching payloads in blocks

A fetch slot asks a peer for the next blocks of a payload and tells it with a bitmap which ones it
does not need. Rhizome over MDP is enabled on both sides, and the slot has a manifest.
-/

namespace ServalMesh.Rhizome

open Lib Overlay List

section Model

/-- The states `RHIZOME_FETCH_*` of a slot. -/
inductive FetchState where
  | free
  | connecting
  | sendingHttpRequest
  | rxHttpHeaders
  | rxFile
  | rxFileMdp
deriving DecidableEq

/-- The elements of `struct rhizome_fetch_slot` that are used for MDP. -/
structure MdpSlot where
  state : FetchState
  writeState : RhizomeWrite
  bid : List Byte
  bidVersion : BitVec 64
  mdpResponsesOutstanding : ℤ
  mdpRXBlockLength : ℕ

/-- The packet of `rhizome_fetch_mdp_requestblocks`. -/
structure BlockRequest where
  bid : List Byte
  version : BitVec 64
  fileOffset : ℕ
  bitmap : BitVec 32
  blockLength : ℕ
deriving DecidableEq

/-- A packet of `rhizome_mdp_send_block`: its type is `T` rather than `B` if it is terminal. -/
structure Block where
  terminal : Bool
  bidPrefix : List Byte
  version : BitVec 64
  offset : ℕ
  bytes : List Byte
deriving DecidableEq

/-- The loop that sets bit `31 - i` if the block `i` is in one of the buffers. -/
def bitmapLoop (blockLength : ℕ) : ℕ → List WriteBuffer → ℕ → BitVec 32 → ℤ → BitVec 32 × ℤ
  | 0, _, _, bitmap, requests => (bitmap, requests)
  | left + 1, list, offset, bitmap, requests =>
    match list.dropWhile fun p => p.offset + p.data.length < offset with
    | [] => (bitmap, requests)
    | p :: rest =>
      if p.offset ≤ offset ∧ offset + blockLength ≤ p.offset + p.data.length then
        bitmapLoop blockLength left (p :: rest) (offset + blockLength) (bitmap ||| 1#32 <<< left)
          (requests - 1)
      else bitmapLoop blockLength left (p :: rest) (offset + blockLength) bitmap requests

def rhizomeFetchMdpRequestblocks (slot : MdpSlot) : BlockRequest × MdpSlot :=
  let (bitmap, requests) := bitmapLoop slot.mdpRXBlockLength 32 slot.writeState.bufferList
    slot.writeState.fileOffset 0#32 32
  (⟨slot.bid, slot.bidVersion, slot.writeState.fileOffset, bitmap, slot.mdpRXBlockLength % 2 ^ 16⟩,
    { slot with mdpResponsesOutstanding := requests })

/-- What a peer has for the bundle and the version of a request: the hash that is in the database,
and the entry of the cache. -/
structure BlockServer where
  running : Bool
  store : Store
  filehash : Option (List Byte)
  entry : Option RhizomeRead
deriving DecidableEq

/-- The entry of the cache, which is opened if it is not there yet. -/
def openEntry (server : BlockServer) : Option RhizomeRead :=
  match server.entry with
  | some read => some read
  | none =>
    match server.filehash with
    | none => none
    | some filehash =>
      match rhizomeOpenRead server.store .zero filehash with
      | (.stored, read) => some read
      | _ => none

def rhizomeReadCached (host : Host) (server : BlockServer) (fileOffset length : ℕ) :
    Option (List Byte) × BlockServer :=
  match openEntry server with
  | none => (none, server)
  | some read =>
    let read := { read with offset := fileOffset }
    if read.length ≤ fileOffset then (some [], { server with entry := some read })
    else
      let (data, read) := rhizomeRead host read length
      (data, { server with entry := some read })

/-- The loop that sends block `i` if bit `31 - i` is not set. -/
def sendLoop (host : Host) (queueRemaining : ℕ → ℕ) (request : BlockRequest) :
    ℕ → BlockServer → List Block × BlockServer
  | 0, server => ([], server)
  | left + 1, server =>
    let i := 31 - left
    if request.bitmap &&& 1#32 <<< left ≠ 0#32 then
      sendLoop host queueRemaining request left server
    else if queueRemaining i < 10 then ([], server)
    else
      let offset := (request.fileOffset + i * request.blockLength) % 2 ^ 64
      match rhizomeReadCached host server offset request.blockLength with
      | (none, server) => ([], server)
      | (some bytes, server) =>
        if bytes = [] then ([], server)
        else
          let (blocks, server) := sendLoop host queueRemaining request left server
          (⟨decide (bytes.length < request.blockLength), request.bid.take 16, request.version,
            offset, bytes⟩ :: blocks, server)

def rhizomeMdpSendBlock (host : Host) (queueRemaining : ℕ → ℕ) (server : BlockServer)
    (request : BlockRequest) : ℤ × List Block × BlockServer :=
  if !server.running then (-1, [], server)
  else if request.blockLength = 0 ∨ 1024 < request.blockLength then (-1, [], server)
  else (0, sendLoop host queueRemaining request 32 server)

/-- `rhizome_fetch_close`, before the next fetch is started. -/
def rhizomeFetchClose (slot : MdpSlot) : MdpSlot :=
  { slot with state := .free, writeState := rhizomeFailWrite slot.writeState }

/-- `rhizome_write_complete`, without the import of the manifest. -/
def rhizomeWriteComplete (host : Host) (store : Store) (slot : MdpSlot) :
    Except Abort (ℤ × MdpSlot × Store) :=
  if slot.writeState.fileOffset < slot.writeState.fileLength.getD rhizomeSizeUnset then
    .ok (0, slot, store)
  else
    match rhizomeFinishWrite host store slot.writeState with
    | .error e => .error e
    | .ok (_, writeState, store) =>
      .ok (-1, rhizomeFetchClose { slot with writeState }, store)

/-- `rhizome_received_content`, for the payload of a slot. -/
def rhizomeReceivedContent (host : Host) (store : Store) (slot : MdpSlot) (block : Block) :
    Except Abort (ℤ × MdpSlot × Store × List BlockRequest) :=
  if slot.state = .rxFileMdp ∧ block.bidPrefix = slot.bid.take 16 ∧
      slot.bidVersion = block.version then
    let (ret, writeState) :=
      rhizomeRandomWrite host slot.writeState block.offset (some block.bytes)
    let slot := { slot with writeState }
    if ret ≠ 0 then .ok (-1, slot, store, [])
    else
      match rhizomeWriteComplete host store slot with
      | .error e => .error e
      | .ok (ret, slot, store) =>
        if ret ≠ 0 then .ok (-1, slot, store, [])
        else
          let slot := { slot with mdpResponsesOutstanding := slot.mdpResponsesOutstanding - 1 }
          if slot.mdpResponsesOutstanding = 0 then
            let (request, slot) := rhizomeFetchMdpRequestblocks slot
            .ok (0, slot, store, [request])
          else .ok (0, slot, store, [])
  else .ok (-1, slot, store, [])

/-- A slot, a peer, and all packets that were ever sent between them. -/
structure BlockSystem where
  slot : MdpSlot
  store : Store
  server : BlockServer
  requests : List BlockRequest
  blocks : List Block

/-- What can happen: the slot asks again or gives up after a timeout, any request that was ever sent
arrives, any block that was ever sent arrives, or the entry of the cache expires. -/
inductive BlockStep where
  | timeout
  | giveUp
  | serve (request : ℕ) (queueRemaining : ℕ → ℕ)
  | receive (block : ℕ)
  | expire

def BlockSystem.step (host : Host) (s : BlockSystem) : BlockStep → Except Abort BlockSystem
  | .timeout =>
    if s.slot.state = .rxFileMdp then
      let (request, slot) := rhizomeFetchMdpRequestblocks s.slot
      .ok { s with slot, requests := s.requests ++ [request] }
    else .ok s
  | .giveUp =>
    .ok (if s.slot.state = .rxFileMdp then { s with slot := rhizomeFetchClose s.slot } else s)
  | .serve k queueRemaining =>
    match s.requests[k]? with
    | none => .ok s
    | some request =>
      let (_, blocks, server) := rhizomeMdpSendBlock host queueRemaining s.server request
      .ok { s with server, blocks := s.blocks ++ blocks }
  | .receive k =>
    match s.blocks[k]? with
    | none => .ok s
    | some block =>
      match rhizomeReceivedContent host s.store s.slot block with
      | .error e => .error e
      | .ok (_, slot, store, requests) =>
        .ok { s with slot, store, requests := s.requests ++ requests }
  | .expire => .ok { s with server := { s.server with entry := none } }

def runBlocks (host : Host) (s : BlockSystem) : List BlockStep → Except Abort BlockSystem
  | [] => .ok s
  | step :: steps =>
    match s.step host step with
    | .error e => .error e
    | .ok s => runBlocks host s steps

end Model

section Requests

variable {host : Host} {w : RhizomeWrite} {slot : MdpSlot} {bitmap : BitVec 32}

theorem getLsbD_or_bit {left j : ℕ} (h : (bitmap ||| 1#32 <<< left).getLsbD j = true) :
    bitmap.getLsbD j = true ∨ j = left := by
  rw [BitVec.getLsbD_or, Bool.or_eq_true] at h
  rcases h with h | h
  · exact .inl h
  · rw [BitVec.getLsbD_shiftLeft, Bool.and_eq_true, Bool.and_eq_true, BitVec.getLsbD_one] at h
    simp only [Bool.not_eq_true', decide_eq_false_iff_not, Bool.and_eq_true,
      decide_eq_true_eq] at h
    omega

/-- A bit is only set for a block that is in a buffer. -/
theorem bitmapLoop_set {blockLength left j : ℕ} {list : List WriteBuffer} {offset : ℕ}
    {requests : ℤ}
    (h : (bitmapLoop blockLength left list offset bitmap requests).1.getLsbD j = true) :
    bitmap.getLsbD j = true ∨ j < left ∧ ∃ p ∈ list,
      p.offset ≤ offset + (left - 1 - j) * blockLength ∧
      offset + (left - 1 - j) * blockLength + blockLength ≤ p.stop := by
  induction left generalizing list offset bitmap requests with
  | zero => exact .inl h
  | succ left ih =>
    rw [bitmapLoop] at h
    split at h
    case h_1 => exact .inl h
    rename_i p rest hdrop
    have hsub : ∀ q ∈ p :: rest, q ∈ list := fun q hq =>
      (dropWhile_sublist _).mem (hdrop ▸ hq)
    -- a block that a later round finds is one further from here
    have hlater : (j < left ∧ ∃ q ∈ p :: rest,
        q.offset ≤ offset + blockLength + (left - 1 - j) * blockLength ∧
        offset + blockLength + (left - 1 - j) * blockLength + blockLength ≤ q.stop) →
        j < left + 1 ∧ ∃ q ∈ list, q.offset ≤ offset + (left + 1 - 1 - j) * blockLength ∧
        offset + (left + 1 - 1 - j) * blockLength + blockLength ≤ q.stop := by
      rintro ⟨hj, q, hq, hle, hstop⟩
      have hnext : left + 1 - 1 - j = left - 1 - j + 1 := by omega
      rw [hnext, Nat.add_mul, Nat.one_mul]
      exact ⟨by omega, q, hsub q hq, by omega, by omega⟩
    split at h
    case isTrue hcovers =>
      rcases ih h with hset | hset
      · rcases getLsbD_or_bit hset with hset | rfl
        · exact .inl hset
        · exact .inr ⟨by omega, p, hsub p mem_cons_self, by simpa [WriteBuffer.stop] using hcovers⟩
      · exact .inr (hlater hset)
    case isFalse => exact (ih h).imp_right hlater

/-- The block after what was processed is always asked for. -/
theorem Placed.first_requested {length blockLength : ℕ} (h : Placed length w)
    (hpos : 0 < blockLength) :
    (bitmapLoop blockLength 32 w.bufferList w.fileOffset 0#32 32).1.getLsbD 31 = false := by
  rw [bitmapLoop]
  split
  · rfl
  rename_i p rest hdrop
  split
  case isTrue hcovers =>
    have hlist : w.bufferList = w.bufferList.takeWhile (fun p =>
        decide (p.offset + p.data.length < w.fileOffset)) ++ p :: rest := by
      rw [← hdrop, takeWhile_append_dropWhile]
    have hstop := h.stop_le hlist (fun q hq => by
      simpa [WriteBuffer.stop] using mem_takeWhile_imp hq) hcovers.1
    rw [WriteBuffer.stop] at hstop
    omega
  case isFalse =>
    rw [Bool.eq_false_iff]
    intro hset
    rcases bitmapLoop_set hset with hset | ⟨hlt, -⟩
    · cases hset
    · exact absurd hlt (lt_irrefl _)

end Requests

section Answers

variable {host : Host} {file : List Byte} {server : BlockServer} {request : BlockRequest}
  {queueRemaining : ℕ → ℕ} {left : ℕ}

/-- The peer has the payload, and so does the entry of its cache. -/
structure Serves (host : Host) (file : List Byte) (server : BlockServer) : Prop where
  running : server.running = true
  filehash : server.filehash = some (host.sha512 file)
  stored : server.store.find? (fun entry => entry.1 = host.sha512 file) =
    some (host.sha512 file, file)
  entry : ∀ read, server.entry = some read →
    ReadsBlob host read ∧ read.blob = file ∧ read.crypt = false

section

variable (h : Serves host file server)
include h

theorem Serves.cached {read : RhizomeRead}
    (hread : ReadsBlob host read) (hblob : read.blob = file) (hcrypt : read.crypt = false) :
    Serves host file { server with entry := some read } := by
  refine { h with entry := ?_ }
  rintro _ ⟨⟩
  exact ⟨hread, hblob, hcrypt⟩

theorem Serves.openEntry :
    ∃ read, openEntry server = some read ∧ ReadsBlob host read ∧ read.blob = file ∧
      read.crypt = false := by
  rw [Rhizome.openEntry]
  cases hentry : server.entry with
  | some read => exact ⟨read, rfl, h.entry read hentry⟩
  | none =>
    have hopen : rhizomeOpenRead server.store .zero (host.sha512 file) =
        (.stored, { RhizomeRead.zero with
          id := host.sha512 file, blob := file, length := file.length }) := by
      rw [rhizomeOpenRead]
      simp only [h.stored]
      rfl
    rw [h.filehash]
    dsimp only
    rw [hopen]
    exact ⟨_, rfl, ⟨rfl, rfl, rfl, Nat.zero_le _, by simp [RhizomeRead.zero]⟩, rfl, rfl⟩

theorem Serves.readCached (offset n : ℕ) :
    ∃ server', rhizomeReadCached host server offset n =
      (some ((file.drop offset).take n), server') ∧ Serves host file server' := by
  obtain ⟨read, hopen, hread, rfl, hcrypt⟩ := h.openEntry
  have hseek : ReadsBlob host { read with offset } := { hread with }
  rw [rhizomeReadCached, hopen]
  dsimp only
  split
  case isTrue hend =>
    rw [hread.length] at hend
    rw [drop_eq_nil_of_le hend, take_nil]
    exact ⟨_, rfl, h.cached hseek rfl hcrypt⟩
  case isFalse =>
    obtain ⟨read', hread', h', hsame, -⟩ := hseek.rhizomeRead n
    rw [hread', RhizomeRead.next, if_neg (by simp [hcrypt])]
    exact ⟨_, rfl, h.cached h' hsame.blob (hsame.crypt.trans hcrypt)⟩

end

/-- What a block should be. -/
def blockAt (file : List Byte) (request : BlockRequest) (i : ℕ) : Block :=
  let bytes := (file.drop (request.fileOffset + i * request.blockLength)).take request.blockLength
  ⟨decide (bytes.length < request.blockLength), request.bid.take 16, request.version,
    request.fileOffset + i * request.blockLength, bytes⟩

/-- The blocks whose bit is clear and whose offset is inside the file. -/
def answers (file : List Byte) (request : BlockRequest) : List Block :=
  ((List.range 32).filter fun i => !request.bitmap.getLsbD (31 - i) &&
    decide (request.fileOffset + i * request.blockLength < file.length)).map (blockAt file request)

theorem and_bit_ne_zero {bitmap : BitVec 32} (hleft : left < 32) :
    bitmap &&& 1#32 <<< left ≠ 0#32 ↔ bitmap.getLsbD left = true := by
  have hbit : bitmap &&& 1#32 <<< left = if bitmap.getLsbD left then .twoPow 32 left else 0#32 :=
    BitVec.and_twoPow bitmap left
  rw [hbit]
  split
  case isTrue hset =>
    refine iff_of_true (fun hzero => ?_) hset
    have := congrArg (BitVec.getLsbD · left) hzero
    simp [hleft] at this
  case isFalse hclear => exact iff_of_false (not_not.mpr rfl) hclear

/-- A block that is sent for a request. -/
def SentFor (file : List Byte) (request : BlockRequest) (block : Block) : Prop :=
  block.bidPrefix = request.bid.take 16 ∧ block.version = request.version ∧
    block.bytes ≠ [] ∧ block.bytes = (file.drop block.offset).take request.blockLength

section

variable (h : Serves host file server)
include h

/-- Whatever is asked for and however full the queue is, only pieces of the file are sent. -/
theorem Serves.sendLoop (queueRemaining : ℕ → ℕ) (request : BlockRequest) (left : ℕ) :
    Serves host file (sendLoop host queueRemaining request left server).2 ∧
      ∀ block ∈ (Rhizome.sendLoop host queueRemaining request left server).1,
        SentFor file request block := by
  induction left generalizing server with
  | zero => exact ⟨h, nofun⟩
  | succ left ih =>
    rw [Rhizome.sendLoop]
    split
    · exact ih h
    split
    · exact ⟨h, nofun⟩
    obtain ⟨server', hread, h'⟩ := h.readCached
      ((request.fileOffset + (31 - left) * request.blockLength) % 2 ^ 64) request.blockLength
    dsimp only
    rw [hread]
    dsimp only
    split
    · exact ⟨h', nofun⟩
    case isFalse hne =>
      obtain ⟨hserves, hblocks⟩ := ih h'
      exact ⟨hserves, forall_mem_cons.mpr ⟨⟨rfl, rfl, hne, rfl⟩, hblocks⟩⟩

section

variable (hqueue : ∀ i, 10 ≤ queueRemaining i) (hpos : 0 < request.blockLength)
include hqueue hpos

/-- With space in the queue, the loop sends what is left of the answers. -/
theorem Serves.sendLoop_answers
    (hwrap : request.fileOffset + 32 * request.blockLength ≤ 2 ^ 64) (hleft : left ≤ 32) :
    (Rhizome.sendLoop host queueRemaining request left server).1 =
      ((List.range' (32 - left) left).filter fun i => !request.bitmap.getLsbD (31 - i) &&
        decide (request.fileOffset + i * request.blockLength < file.length)).map
          (blockAt file request) := by
  induction left generalizing server with
  | zero => rfl
  | succ left ih =>
    have hfirst : 32 - (left + 1) = 31 - left := by omega
    have hrest : 31 - left + 1 = 32 - left := by omega
    have hbit : 31 - (31 - left) = left := by omega
    rw [Rhizome.sendLoop, List.range'_succ, filter_cons, hfirst, hrest, hbit]
    by_cases hset : request.bitmap.getLsbD left = true
    · rw [if_pos ((and_bit_ne_zero (by omega)).mpr hset), ih h (by omega), hset]
      rfl
    rw [if_neg ((and_bit_ne_zero (by omega)).not.mpr hset), if_neg (not_lt.mpr (hqueue _))]
    have hmod : (request.fileOffset + (31 - left) * request.blockLength) % 2 ^ 64 =
        request.fileOffset + (31 - left) * request.blockLength := by
      have : (31 - left) * request.blockLength ≤ 31 * request.blockLength :=
        Nat.mul_le_mul_right _ (by omega)
      exact Nat.mod_eq_of_lt (by omega)
    obtain ⟨server', hread, h'⟩ := h.readCached
      (request.fileOffset + (31 - left) * request.blockLength) request.blockLength
    dsimp only
    rw [hmod, hread]
    dsimp only
    by_cases hinside : request.fileOffset + (31 - left) * request.blockLength < file.length
    · have hne : (file.drop (request.fileOffset + (31 - left) * request.blockLength)).take
          request.blockLength ≠ [] := by
        rw [← length_pos_iff, length_take, length_drop]
        omega
      rw [if_neg hne, if_pos (by simp [hset, hinside]), map_cons, ← ih h' (by omega)]
      rfl
    · -- no later block is inside the file either
      have hnone : (List.range' (32 - left) left).filter (fun i =>
          !request.bitmap.getLsbD (31 - i) &&
            decide (request.fileOffset + i * request.blockLength < file.length)) = [] := by
        rw [filter_eq_nil_iff]
        intro i hi
        have hle : (31 - left) * request.blockLength ≤ i * request.blockLength :=
          Nat.mul_le_mul_right _ (by have := (mem_range'_1.mp hi).1; omega)
        simp only [Bool.and_eq_true, decide_eq_true_eq, not_and]
        omega
      rw [if_pos (by rw [drop_eq_nil_of_le (by omega), take_nil]),
        if_neg (by simp [hinside]), hnone]
      rfl

theorem Serves.rhizomeMdpSendBlock (hmax : request.blockLength ≤ 1024)
    (hfile : request.fileOffset ≤ file.length) (hlength : file.length < 2 ^ 63) :
    ∃ server', Rhizome.rhizomeMdpSendBlock host queueRemaining server request =
      (0, answers file request, server') ∧ Serves host file server' := by
  have hanswers := h.sendLoop_answers hqueue hpos (by omega) le_rfl
  obtain ⟨hserves, -⟩ := h.sendLoop queueRemaining request 32
  refine ⟨_, ?_, hserves⟩
  rw [Rhizome.rhizomeMdpSendBlock, if_neg (by simp [h.running]), if_neg (by omega), answers,
    range_eq_range']
  exact Prod.ext rfl (Prod.ext hanswers rfl)

end

end

end Answers

section Runs

variable {host : Host} {file : List Byte} {store₀ : Store} {s s' : BlockSystem} {slot : MdpSlot}
  {block : Block}

/-- A block that came from the file of the slot. -/
structure BlockOf (file : List Byte) (slot : MdpSlot) (block : Block) : Prop where
  bidPrefix : block.bidPrefix = slot.bid.take 16
  version : block.version = slot.bidVersion
  bytes : block.bytes ≠ []
  inside : block.offset < file.length
  piece : IsPiece file block.offset block.bytes

/-- What holds in every run: all that was received is part of the file. -/
structure Transferring (host : Host) (file : List Byte) (store₀ : Store) (s : BlockSystem) :
    Prop where
  nonempty : file ≠ []
  streamed : s.slot.state = .rxFileMdp →
    Streamed host file file s.slot.writeState s.slot.writeState.bufferList
  serves : Serves host file s.server
  requests : ∀ request ∈ s.requests, request.bid = s.slot.bid ∧ request.version = s.slot.bidVersion
  blocks : ∀ block ∈ s.blocks, BlockOf file s.slot block
  store : ∀ entry ∈ s.store, entry ∈ store₀ ∨ entry = (host.sha512 file, file)

theorem isPiece_take {offset n : ℕ} {data : List Byte} (h : data = (file.drop offset).take n) :
    IsPiece file offset data := by
  have hle : data.length ≤ file.length - offset := by
    rw [h, length_take, length_drop]
    exact min_le_right _ _
  rw [IsPiece, take_of_length_le hle]
  exact eq_take_length h

theorem blockOf_sent {request : BlockRequest} (hbid : request.bid = slot.bid)
    (hversion : request.version = slot.bidVersion)
    (hblock : SentFor file request block) : BlockOf file slot block := by
  obtain ⟨hbidOf, hversion', hne, hbytes⟩ := hblock
  refine ⟨hbid ▸ hbidOf, hversion'.trans hversion, hne, ?_, isPiece_take hbytes⟩
  by_contra hout
  rw [drop_eq_nil_of_le (not_lt.mp hout), take_nil] at hbytes
  exact hne hbytes

/-- What a packet does to a slot. -/
structure Accepts (host : Host) (file : List Byte) (store : Store) (slot : MdpSlot)
    (slot' : MdpSlot) (store' : Store) (requests : List BlockRequest) : Prop where
  bid : slot'.bid = slot.bid
  bidVersion : slot'.bidVersion = slot.bidVersion
  state : slot'.state = .rxFileMdp → slot.state = .rxFileMdp
  streamed : slot'.state = .rxFileMdp →
    Streamed host file file slot'.writeState slot'.writeState.bufferList
  offset_le : slot.writeState.fileOffset ≤ slot'.writeState.fileOffset
  requests : ∀ request ∈ requests, request.bid = slot.bid ∧ request.version = slot.bidVersion
  store : ∀ entry ∈ store', entry ∈ store ∨ entry = (host.sha512 file, file)

/-- A slot ends with the whole file in the store, or goes on. -/
theorem rhizomeWriteComplete_stores (slot : MdpSlot) (store : Store) (hfile : file ≠ [])
    (h : Streamed host file file slot.writeState slot.writeState.bufferList) :
    rhizomeWriteComplete host store slot = .ok (0, slot, store) ∨
    ∃ slot' store', rhizomeWriteComplete host store slot = .ok (-1, slot', store') ∧
      slot'.state = .free ∧ slot'.bid = slot.bid ∧ slot'.bidVersion = slot.bidVersion ∧
      slot.writeState.fileOffset ≤ slot'.writeState.fileOffset ∧
      ∀ entry ∈ store', entry ∈ store ∨ entry = (host.sha512 file, file) := by
  rw [rhizomeWriteComplete, h.length, Option.getD_some]
  split
  · exact .inl rfl
  rename_i hend
  have hle := h.offset_le
  obtain ⟨status, w', store', hfinish, hoffset, hstored⟩ :=
    h.finishWrite hfile (by omega) store
  rw [hfinish]
  refine .inr ⟨_, _, rfl, rfl, rfl, rfl, hle.trans hoffset.ge, fun entry hentry => ?_⟩
  rcases hstored with ⟨-, -, rfl⟩ | ⟨-, -, -, rfl⟩
  · exact .inl hentry
  · split at hentry
    · exact .inl hentry
    · exact (mem_cons.mp hentry).symm

/-- A block that was sent is accepted. If it has the byte that comes next, that is progress. -/
theorem rhizomeReceivedContent_accepts (store : Store) (hfile : file ≠ [])
    (h : slot.state = .rxFileMdp →
      Streamed host file file slot.writeState slot.writeState.bufferList)
    (hblock : BlockOf file slot block) :
    ∃ ret slot' store' requests,
      rhizomeReceivedContent host store slot block = .ok (ret, slot', store', requests) ∧
      Accepts host file store slot slot' store' requests ∧
      (slot.state = .rxFileMdp → block.offset = slot.writeState.fileOffset →
        slot.writeState.fileOffset < slot'.writeState.fileOffset) := by
  rw [rhizomeReceivedContent]
  by_cases hstate : slot.state = .rxFileMdp
  swap
  · rw [if_neg (fun hcond => hstate hcond.1)]
    exact ⟨_, _, _, _, rfl, ⟨rfl, rfl, id, h, le_rfl, nofun, fun _ => .inl⟩,
      fun hrx => absurd hrx hstate⟩
  rw [if_pos ⟨hstate, hblock.bidPrefix, hblock.version.symm⟩]
  obtain ⟨w', hwrite, h', -, hle, hnext⟩ := (h hstate).randomWrite_progress hblock.piece
  have hlt : block.offset = slot.writeState.fileOffset →
      slot.writeState.fileOffset < w'.fileOffset := by
    intro hoffset
    have hinside := hblock.inside
    have hpos := length_pos_of_ne_nil hblock.bytes
    exact hnext hoffset.le (by omega) (by omega)
  rw [hwrite]
  dsimp only
  rw [if_neg (by simp)]
  rcases rhizomeWriteComplete_stores { slot with writeState := w' } store hfile h' with
    hcomplete | ⟨slot', store', hcomplete, hfree, hbid, hversion, hoffset, hstore⟩
  · rw [hcomplete]
    dsimp only
    rw [if_neg (by simp)]
    split
    · exact ⟨_, _, _, _, rfl, ⟨rfl, rfl, fun _ => hstate, fun _ => h', hle,
        forall_mem_singleton.mpr ⟨rfl, rfl⟩, fun _ => .inl⟩, fun _ => hlt⟩
    · exact ⟨_, _, _, _, rfl, ⟨rfl, rfl, fun _ => hstate, fun _ => h', hle, nofun, fun _ => .inl⟩,
        fun _ => hlt⟩
  · rw [hcomplete]
    exact ⟨_, _, _, _, rfl, ⟨hbid, hversion, fun _ => hstate,
      fun hrx => (nomatch hfree.symm.trans hrx), hle.trans hoffset, nofun, hstore⟩,
        fun _ hfirst => (hlt hfirst).trans_le hoffset⟩

section

variable (h : Transferring host file store₀ s)

include h

/-- The same packets are still part of the file for a slot of the same bundle. -/
theorem Transferring.accepted {slot : MdpSlot} {store : Store} {requests : List BlockRequest}
    (haccepts : Accepts host file s.store s.slot slot store requests) :
    Transferring host file store₀ { s with slot, store, requests := s.requests ++ requests } := by
  refine ⟨h.nonempty, haccepts.streamed, h.serves, ?_, fun block hblock => ?_, ?_⟩
  · rw [haccepts.bid, haccepts.bidVersion]
    exact forall_mem_append.mpr ⟨h.requests, haccepts.requests⟩
  · have hof := h.blocks block hblock
    exact { hof with bidPrefix := haccepts.bid ▸ hof.1, version := haccepts.bidVersion ▸ hof.2 }
  · intro entry hentry
    rcases haccepts.store entry hentry with hentry | hentry
    · exact h.store entry hentry
    · exact .inr hentry

theorem Transferring.receive {k : ℕ} {block : Block} (hblock : s.blocks[k]? = some block) :
    ∃ s', s.step host (.receive k) = .ok s' ∧ Transferring host file store₀ s' ∧
      s.slot.writeState.fileOffset ≤ s'.slot.writeState.fileOffset ∧
      (s.slot.state = .rxFileMdp → block.offset = s.slot.writeState.fileOffset →
        s.slot.writeState.fileOffset < s'.slot.writeState.fileOffset) := by
  have hof := h.blocks block (mem_of_getElem? hblock)
  obtain ⟨ret, slot', store', requests, hreceive, haccepts, hnext⟩ :=
    rhizomeReceivedContent_accepts s.store h.nonempty h.streamed hof
  refine ⟨_, ?_, h.accepted haccepts, haccepts.offset_le, hnext⟩
  rw [BlockSystem.step, hblock]
  dsimp only
  rw [hreceive]

theorem Transferring.step (step : BlockStep) :
    ∃ s', s.step host step = .ok s' ∧ Transferring host file store₀ s' ∧
      s.slot.writeState.fileOffset ≤ s'.slot.writeState.fileOffset := by
  cases step with
  | timeout =>
    rw [BlockSystem.step]
    split
    case isTrue hstate =>
      exact ⟨_, rfl, h.accepted ⟨rfl, rfl, fun _ => hstate, h.streamed, le_rfl,
        forall_mem_singleton.mpr ⟨rfl, rfl⟩, fun _ => .inl⟩, le_rfl⟩
    case isFalse => exact ⟨s, rfl, h, le_rfl⟩
  | giveUp =>
    rw [BlockSystem.step]
    split
    case isTrue hstate =>
      have haccepts : Accepts host file s.store s.slot (rhizomeFetchClose s.slot) s.store [] :=
        ⟨rfl, rfl, fun _ => hstate, nofun, le_rfl, nofun, fun _ => .inl⟩
      have hclosed := h.accepted haccepts
      rw [append_nil] at hclosed
      exact ⟨_, rfl, hclosed, le_rfl⟩
    case isFalse => exact ⟨s, rfl, h, le_rfl⟩
  | serve k queueRemaining =>
    rw [BlockSystem.step]
    cases hrequest : s.requests[k]? with
    | none => exact ⟨s, rfl, h, le_rfl⟩
    | some request =>
      obtain ⟨hbid, hversion⟩ := h.requests request (mem_of_getElem? hrequest)
      have hsent : Serves host file
            (rhizomeMdpSendBlock host queueRemaining s.server request).2.2 ∧
          ∀ block ∈ (rhizomeMdpSendBlock host queueRemaining s.server request).2.1,
            BlockOf file s.slot block := by
        obtain ⟨hserves, hblocks⟩ := h.serves.sendLoop queueRemaining request 32
        rw [rhizomeMdpSendBlock]
        split
        · exact ⟨h.serves, nofun⟩
        split
        · exact ⟨h.serves, nofun⟩
        · exact ⟨hserves, fun block hblock => blockOf_sent hbid hversion (hblocks block hblock)⟩
      exact ⟨_, rfl, { h with
        serves := hsent.1, blocks := forall_mem_append.mpr ⟨h.blocks, hsent.2⟩ }, le_rfl⟩
  | receive k =>
    cases hblock : s.blocks[k]? with
    | none =>
      rw [BlockSystem.step, hblock]
      exact ⟨s, rfl, h, le_rfl⟩
    | some block =>
      obtain ⟨s', hstep, h', hle, -⟩ := h.receive hblock
      exact ⟨s', hstep, h', hle⟩
  | expire => exact ⟨_, rfl, { h with serves := { h.serves with entry := nofun } }, le_rfl⟩

theorem Transferring.run (steps : List BlockStep) :
    ∃ s', runBlocks host s steps = .ok s' ∧ Transferring host file store₀ s' ∧
      s.slot.writeState.fileOffset ≤ s'.slot.writeState.fileOffset := by
  induction steps generalizing s with
  | nil => exact ⟨s, rfl, h, le_rfl⟩
  | cons step steps ih =>
    obtain ⟨s₁, hstep, h₁, hle₁⟩ := h.step step
    obtain ⟨s', hrun, h', hle'⟩ := ih h₁
    exact ⟨s', by rw [runBlocks, hstep]; exact hrun, h', hle₁.trans hle'⟩

end

/-- A slot whose payload was opened and then written to in any way, with a block length that is
allowed. -/
structure ReachableSlot (host : Host) (length : ℕ) (slot : MdpSlot) : Prop where
  written : ∃ store store' id opened crypt tail key nonce calls,
    rhizomeOpenWrite host store .zero id (some length) = (.new, opened, store') ∧
    slot.writeState = runWrites host { opened with crypt, tail, key, nonce } calls
  pos : 1 ≤ slot.mdpRXBlockLength
  le : slot.mdpRXBlockLength ≤ 1024

theorem ReachableSlot.placed {length : ℕ} (h : ReachableSlot host length slot) :
    Placed length slot.writeState := by
  obtain ⟨store, store', id, opened, crypt, tail, key, nonce, calls, hopen, hwrite⟩ := h.written
  rw [hwrite]
  exact runWrites_placed hopen rfl calls

/-- A slot that has received some of the file and a peer that has all of it, before they have sent
anything. -/
structure Starts (host : Host) (file : List Byte) (s : BlockSystem) : Prop where
  state : s.slot.state = .rxFileMdp
  written : ∃ store store' id opened calls,
    rhizomeOpenWrite host store .zero id (some file.length) = (.new, opened, store') ∧
    s.slot.writeState = runWrites host opened calls ∧
    ∀ call ∈ calls, IsPiece file call.1 call.2
  serves : Serves host file s.server
  requests : s.requests = []
  blocks : s.blocks = []

theorem Starts.transferring (h : Starts host file s) : Transferring host file s.store s := by
  obtain ⟨store, store', id, opened, calls, hopen, hwrite, hcalls⟩ := h.written
  have hplain : opened = { opened with crypt := false, tail := 0, key := [], nonce := [] } := by
    obtain ⟨rfl, -⟩ := rhizomeOpenWrite_new hopen
    rfl
  obtain ⟨hstreamed, hfile⟩ := streamed_open hopen hplain nofun
  have hclear : opened.Clear opened.bufferList := by
    obtain ⟨rfl, -⟩ := rhizomeOpenWrite_new hopen
    exact nofun
  have hfile' : encrypted host opened file = file := by
    rw [hplain]
    rfl
  rw [hfile'] at hstreamed
  refine ⟨hfile, fun _ => ?_, h.serves, ?_, ?_, fun entry hentry => .inl hentry⟩
  · rw [hwrite]
    exact (hstreamed.runWrites_clear hclear hcalls).1
  · rw [h.requests]
    exact nofun
  · rw [h.blocks]
    exact nofun

/-- Nothing but bytes of the file has been hashed, written, kept in a buffer or put in the store. -/
structure Intact (host : Host) (file : List Byte) (store₀ : Store) (s : BlockSystem) : Prop where
  hashed : s.slot.state = .rxFileMdp →
    s.slot.writeState.hashed = file.take s.slot.writeState.fileOffset
  written : s.slot.state = .rxFileMdp →
    s.slot.writeState.blob = file.take s.slot.writeState.writtenOffset
  buffers : s.slot.state = .rxFileMdp → ∀ p ∈ s.slot.writeState.bufferList,
    p.data = (file.drop p.offset).take p.data.length
  store : ∀ entry ∈ s.store, entry ∈ store₀ ∨ entry = (host.sha512 file, file)

theorem Transferring.intact (h : Transferring host file store₀ s) : Intact host file store₀ s := by
  refine ⟨fun hrx => (h.streamed hrx).hashed, fun hrx => (h.streamed hrx).blob_eq,
    fun hrx p hp => ?_, h.store⟩
  have hcorrect := (h.streamed hrx).correct p hp
  rcases lt_or_ge p.offset s.slot.writeState.fileOffset with hlt | hge
  · exact (hcorrect.below hlt).2
  · exact hcorrect.beyond hge

/-- A request never leaves out a block that is missing, and always asks for the first one. It is
answered with exactly the blocks that it asks for. Whatever is lost, repeated or reordered, only
bytes of the file are received, and when the first block of a request arrives then more of the
file has been processed than when it was sent. -/
theorem rhizomeFetchMdpRequestblocks_progress (host : Host) :
    (∀ length slot, ReachableSlot host length slot →
      (∀ i < 32, (rhizomeFetchMdpRequestblocks slot).1.bitmap.getLsbD (31 - i) = true →
        ∀ j, slot.writeState.fileOffset + i * slot.mdpRXBlockLength ≤ j →
          j < slot.writeState.fileOffset + (i + 1) * slot.mdpRXBlockLength →
          ∃ p ∈ slot.writeState.bufferList, p.offset ≤ j ∧ j < p.stop) ∧
      (rhizomeFetchMdpRequestblocks slot).1.bitmap.getLsbD 31 = false) ∧
    (∀ file slot server queueRemaining, ReachableSlot host file.length slot →
      Serves host file server → file.length < 2 ^ 63 → (∀ i, 10 ≤ queueRemaining i) →
      ∃ server', rhizomeMdpSendBlock host queueRemaining server
          (rhizomeFetchMdpRequestblocks slot).1 =
          (0, answers file (rhizomeFetchMdpRequestblocks slot).1, server') ∧
        Serves host file server' ∧ (slot.writeState.fileOffset < file.length →
          blockAt file (rhizomeFetchMdpRequestblocks slot).1 0 ∈
            answers file (rhizomeFetchMdpRequestblocks slot).1)) ∧
    (∀ file s₀, Starts host file s₀ → ∀ steps, ∃ s, runBlocks host s₀ steps = .ok s ∧
      Intact host file s₀.store s ∧
      ∀ steps' s' k block, runBlocks host s steps' = .ok s' → s'.slot.state = .rxFileMdp →
        s'.blocks[k]? = some block → block.offset = s.slot.writeState.fileOffset →
        ∃ s'', s'.step host (.receive k) = .ok s'' ∧
          s.slot.writeState.fileOffset < s''.slot.writeState.fileOffset) := by
  refine ⟨fun length slot h => ⟨fun i hi hset j hle hlt => ?_, ?_⟩,
    fun file slot server queueRemaining h hserves hlength hqueue => ?_,
    fun file s₀ h steps => ?_⟩
  · change (bitmapLoop slot.mdpRXBlockLength 32 slot.writeState.bufferList
      slot.writeState.fileOffset 0#32 32).1.getLsbD (31 - i) = true at hset
    rcases bitmapLoop_set hset with hset | ⟨-, p, hp, hfirst, hlast⟩
    · simp at hset
    · have hblock : 32 - 1 - (31 - i) = i := by omega
      rw [hblock] at hfirst hlast
      rw [Nat.add_mul, Nat.one_mul] at hlt
      exact ⟨p, hp, by omega, by omega⟩
  · exact h.placed.first_requested h.pos
  · have hplaced := h.placed
    have hpos := h.pos
    have hle := h.le
    have hblockLength : (rhizomeFetchMdpRequestblocks slot).1.blockLength =
        slot.mdpRXBlockLength := Nat.mod_eq_of_lt (by omega)
    obtain ⟨server', hsend, hserves'⟩ := hserves.rhizomeMdpSendBlock hqueue
      (hblockLength ▸ hpos) (hblockLength ▸ hle) hplaced.offset_le hlength
    refine ⟨server', hsend, hserves', fun hinside => mem_map_of_mem ?_⟩
    have hclear : (rhizomeFetchMdpRequestblocks slot).1.bitmap.getLsbD (31 - 0) = false :=
      hplaced.first_requested hpos
    rw [mem_filter, hclear, Nat.zero_mul]
    exact ⟨by simp, decide_eq_true hinside⟩
  · obtain ⟨s, hrun, htransferring, -⟩ := h.transferring.run steps
    refine ⟨s, hrun, htransferring.intact, fun steps' s' k block hrun' hrx hblock hoffset => ?_⟩
    obtain ⟨s₁, hs₁, h', hle⟩ := htransferring.run steps'
    cases hrun'.symm.trans hs₁
    obtain ⟨s'', hstep, -, hle', hnext⟩ := h'.receive hblock
    refine ⟨s'', hstep, ?_⟩
    rcases hle.lt_or_eq with hlt | heq
    · exact hlt.trans_le hle'
    · rw [heq]
      exact hnext hrx (hoffset.trans heq)

/-- A slot that has just been opened for a file of three bytes, and a peer that has it. -/
def threeByteSystem : BlockSystem where
  slot := ⟨.rxFileMdp, { RhizomeWrite.zero with fileLength := some 3 }, [], 1#64, 0, 2⟩
  store := []
  server := ⟨true, [([1#8, 2#8, 3#8], [1#8, 2#8, 3#8])], some [1#8, 2#8, 3#8], none⟩
  requests := []
  blocks := []

theorem rhizomeFetchMdpRequestblocks_progress_three_bytes :
    (rhizomeFetchMdpRequestblocks threeByteSystem.slot).1.bitmap.getLsbD 31 = false ∧
    (∃ server', rhizomeMdpSendBlock nonceHost (fun _ => 10) threeByteSystem.server
      (rhizomeFetchMdpRequestblocks threeByteSystem.slot).1 =
        (0, [⟨false, [], 1#64, 0, [1#8, 2#8]⟩, ⟨true, [], 1#64, 2, [3#8]⟩], server')) ∧
    ∃ s, runBlocks nonceHost threeByteSystem
        [.timeout, .serve 0 fun _ => 10, .receive 1, .receive 1] = .ok s ∧
      Intact nonceHost [1#8, 2#8, 3#8] [] s ∧
      ∃ s', s.step nonceHost (.receive 0) = .ok s' ∧ 0 < s'.slot.writeState.fileOffset := by
  have hopen : rhizomeOpenWrite nonceHost [] .zero none (some [1#8, 2#8, 3#8].length) =
      (.new, { RhizomeWrite.zero with fileLength := some 3 }, []) := by decide +kernel
  have hslot : ReachableSlot nonceHost [1#8, 2#8, 3#8].length threeByteSystem.slot :=
    ⟨⟨[], [], none, _, false, 0, [], [], [], hopen, rfl⟩, by decide, by decide⟩
  have hserves : Serves nonceHost [1#8, 2#8, 3#8] threeByteSystem.server :=
    ⟨rfl, rfl, by decide, nofun⟩
  have hstarts : Starts nonceHost [1#8, 2#8, 3#8] threeByteSystem :=
    ⟨rfl, ⟨[], [], none, _, [], hopen, rfl, nofun⟩,
      hserves, rfl, rfl⟩
  obtain ⟨hrequests, hanswers, hruns⟩ := rhizomeFetchMdpRequestblocks_progress nonceHost
  refine ⟨(hrequests _ _ hslot).2, ?_, ?_⟩
  · obtain ⟨server', hsend, -⟩ := hanswers _ _ _ (fun _ => 10) hslot hserves (by decide)
      fun _ => le_rfl
    have hblocks : answers [1#8, 2#8, 3#8] (rhizomeFetchMdpRequestblocks threeByteSystem.slot).1 =
        [⟨false, [], 1#64, 0, [1#8, 2#8]⟩, ⟨true, [], 1#64, 2, [3#8]⟩] := by decide
    exact ⟨server', hblocks ▸ hsend⟩
  · obtain ⟨s, hrun, hintact, -⟩ := hruns _ _ hstarts
      [.timeout, .serve 0 fun _ => 10, .receive 1, .receive 1]
    obtain ⟨s₀, hrun₀, -, hnext⟩ := hruns _ _ hstarts []
    cases hrun₀
    have hblocks : (runBlocks nonceHost threeByteSystem
        [.timeout, .serve 0 fun _ => 10, .receive 1, .receive 1]).map (fun s =>
          (s.slot.state, s.blocks[0]?)) =
        .ok (.rxFileMdp, some ⟨false, [], 1#64, 0, [1#8, 2#8]⟩) := by
      decide +kernel
    rw [hrun] at hblocks
    obtain ⟨hstate, hblock⟩ := Prod.mk.inj (Except.ok.inj hblocks)
    exact ⟨s, hrun, hintact, hnext _ s 0 _ hrun hstate hblock rfl⟩

end Runs

end ServalMesh.Rhizome
