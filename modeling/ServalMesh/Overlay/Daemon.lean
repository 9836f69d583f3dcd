import ServalMesh.Overlay.Address

/-!
# The daemon and its subscribers

The daemon with its subscriber trie is a host of the parser.
-/

namespace ServalMesh.Overlay

open Lib DigitTrie

/-- `walk_tree`: the subscribers it visits below a slot, from `start` to `stop`. -/
def walkTree (stop : Option (List Byte)) : Option (List Byte) → ℕ → Slot → List Known
  | _, _, .empty => []
  | _, _, .leaf s => [s]
  | start, pos, .node children =>
    let i := match start with
      | some start => if pos < start.length * 2 then (getNibble start pos).val else 0
      | none => 0
    let e := match stop with
      | some stop => if pos < stop.length * 2 then (getNibble stop pos).val + 1 else 16
      | none => 16
    -- only the first branch is compared with the start
    (List.finRange 16).flatMap fun n =>
      if i ≤ n.val ∧ n.val < e then
        walkTree stop (if n.val = i then start else none) (pos + 1) (children n)
      else []

def Known.toSid (s : Known) : Option Sid :=
  if h : s.sid.length = sidSize then some ⟨s.sid, h⟩ else none

/-- A daemon with the subscriber trie; `rest` does all that the trie has no part in. -/
def Host.withTrie {ρ : Type} (rest : Host ρ) : Host (TreeNode × ρ) where
  mySubscriber := rest.mySubscriber
  isSelf d s := rest.isSelf d.2 s
  findSubscriber d id :=
    let (root, found) := Overlay.findSubscriber d.1 id true
    ((root, d.2), found.bind Known.toSid)
  walkTree d id := (Overlay.walkTree (some id) (some id) 0 (.node d.1)).filterMap Known.toSid
  explainDue d s := rest.explainDue d.2 s
  setExplained d s := (d.1, rest.setExplained d.2 s)
  setSendFull d s := (d.1, rest.setSendFull d.2 s)
  linkExplained d s := (d.1, rest.linkExplained d.2 s)
  broadcastDropCheck d id :=
    let (d', drop) := rest.broadcastDropCheck d.2 id
    ((d.1, d'), drop)
  shouldForwardBroadcast d s := rest.shouldForwardBroadcast d.2 s
  linkReceivedDuplicate d s seq :=
    let (d', duplicate) := rest.linkReceivedDuplicate d.2 s seq
    ((d.1, d'), duplicate)
  receivedPacket d c seq flags := (d.1, rest.receivedPacket d.2 c seq flags)
  enqueue d f payload := (d.1, rest.enqueue d.2 f payload)
  processFrame d f payload := (d.1, rest.processFrame d.2 f payload)
  linkStateAckSoon d s := (d.1, rest.linkStateAckSoon d.2 s)

/-- A daemon that keeps no state of its own. -/
def Host.idle (me : Sid) : Host Unit where
  mySubscriber := me
  isSelf _ s := s = me
  findSubscriber d _ := (d, none)
  walkTree _ _ := []
  explainDue _ _ := true
  setExplained d _ := d
  setSendFull d _ := d
  linkExplained d _ := d
  broadcastDropCheck d _ := (d, false)
  shouldForwardBroadcast _ _ := true
  linkReceivedDuplicate d _ _ := (d, false)
  receivedPacket d _ _ _ := d
  enqueue d _ _ := d
  processFrame d _ _ := d
  linkStateAckSoon d _ := d

/-- The id with the same byte everywhere. -/
def Sid.uniform (b : Byte) : Sid := ⟨List.replicate sidSize b, List.length_replicate⟩

/-- A trie with two subscribers. -/
def pairRoot (a b : Sid) : TreeNode :=
  (findSubscriber (findSubscriber (fun _ => .empty) a.bytes true).1 b.bytes true).1

theorem pairRoot_ok (a b : Sid) : TrieOk (pairRoot a b) ∧
    ∀ s, HasSid (pairRoot a b) s ↔ s = b.bytes ∨ s = a.bytes := by
  have hempty : TrieOk fun _ => .empty := fun _ => trivial
  have ha := findSubscriber_create hempty a.size
  have hb := findSubscriber_create ha.ok b.size
  refine ⟨hb.ok, fun s => ?_⟩
  have hnone : ¬ HasSid (fun _ => .empty) s := by
    rintro ⟨path, k, hk, -⟩
    obtain ⟨n, rest, -, hrest⟩ := at_node hk
    exact not_at_empty hrest
  rw [pairRoot, hb.sids, ha.sids]
  simp [hnone]

end ServalMesh.Overlay
