import Rlnc.Network

/-!
The network of full blocks. A message in flight decodes to the block with its number or not at all,
and not at all when the blocks are larger than the codec reads (`run_relayed`). So receivers decode
the blocks of the proposer in their order and never panic, and they decode nothing of larger
blocks (`baseline_agreement`).
-/
namespace Rlnc.Broadcast
open Rlnc.Panics Rlnc.Wire Rlnc.Packing Rlnc.Draws Rlnc.Blocks Rlnc.Protocols Rlnc.Actor Rlnc.Runs Rlnc.Network
set_option linter.unusedSectionVars false

section
variable [FixedCodec UInt64] [BytesCodec] {K : Type} [DecidableEq K] [SliceRandom]

/-! ### Full blocks in a receiver -/

/-- The block that was proposed with this number, if the codec reads it. -/
def Known (blocks : List Block) (n : Nat) (block : Block) : Prop :=
  blocks[n]? = some block ∧ block.transactions.length ≤ MAX_TRANSACTIONS_BYTES

/-- A data message that decodes is the block with its number. -/
def Faithful (blocks : List Block) : Item → Prop
  | (.Announce,_,_) => True
  | (.Data,n,data) => ∀ block, Block.decode data = .ok block → Known blocks n block

/-- What a node does with full blocks. -/
def Relayed (blocks : List Block) : Actor.Event BaselineProtocol K → Prop
  | .ingest _ channel n data => Faithful blocks (channel,n,data)
  | .announced _ => True
  | .forwarded n batch => ∀ entry ∈ batch, ∃ data block, entry.2 = message n data ∧ Block.decode data = .ok block ∧
      Known blocks n block
  | .decoded n block => Known blocks n block

/-- A block arrives that is the last one with a number. -/
def Last : Actor.Event BaselineProtocol K → Prop
  | .ingest _ .Data n data => 2 ^ 64 ≤ n + 1 ∧ ∃ block, Block.decode data = .ok block
  | _ => False

/-- A data message is decoded, or the protocol stays as it is. -/
theorem ingest_data {s : BaselineProtocol} (empty : s.block = none) (n : Nat) (data : Bytes) :
    (∃ block, Block.decode data = .ok block ∧ BaselineProtocol.protocol.ingest s .Data n data =
      .ok ({ s with block_bytes := some data, block := some block },.ok true)) ∨
    ∃ e, (∀ block, Block.decode data ≠ .ok block) ∧ BaselineProtocol.protocol.ingest s .Data n data = .ok (s,.error e) := by
  have waits : ¬s.block.isSome := by simp [empty]
  cases read : Block.decode data with
  | ok block =>
    refine .inl ⟨block,rfl,?_⟩
    simp only [BaselineProtocol.protocol,BaselineProtocol.ingest,if_neg waits,read]
  | error e =>
    refine .inr ⟨s!"failed to decode block: {e}",fun block => by simp,?_⟩
    simp only [BaselineProtocol.protocol,BaselineProtocol.ingest,if_neg waits,read]

theorem relayed_keeps (blocks : List Block) : Keeps BaselineProtocol.protocol (fun _ s => s.block = none)
    (fun _ s => s.block = none) (Faithful blocks) (Relayed (K := K) blocks) Last := by
  constructor
  · intro n s data empty faithful
    by_cases short : data.length < 8
    · have ran : BaselineProtocol.protocol.ingest s .Announce n data = .ok (s,.error "announcement too short") := by
        simp only [BaselineProtocol.protocol,BaselineProtocol.ingest,if_pos short]
      refine ⟨faithful,?_,?_,?_⟩
      · intro p panicked
        cases ran.symm.trans panicked
      · intro t accepted
        cases (ok_pair (ran.symm.trans accepted)).2
      · intro t r answered _
        obtain ⟨rfl,_⟩ := ok_pair (ran.symm.trans answered)
        exact empty
    · have ran : BaselineProtocol.protocol.ingest s .Announce n data = .ok ({ s with byte_len := of_be (data.take 8) },.ok true) := by
        simp only [BaselineProtocol.protocol,BaselineProtocol.ingest,if_neg short]
      refine ⟨faithful,?_,?_,?_⟩
      · intro p panicked
        cases ran.symm.trans panicked
      · intro t accepted
        obtain ⟨rfl,_⟩ := ok_pair (ran.symm.trans accepted)
        exact ⟨empty,trivial⟩
      · intro t r answered _
        obtain ⟨rfl,_⟩ := ok_pair (ran.symm.trans answered)
        exact empty
  · intro n s data empty faithful
    rcases ingest_data empty n data with ⟨block,read,ran⟩ | ⟨e,_,ran⟩
    · have known := faithful block read
      refine ⟨faithful,?_,?_,?_⟩
      · intro p panicked
        cases ran.symm.trans panicked
      · intro t accepted
        obtain ⟨rfl,_⟩ := ok_pair (ran.symm.trans accepted)
        refine ⟨?_,?_,?_,?_,?_,?_⟩
        · rintro count rng p ⟨⟩
        · rintro count rng packets rest targets recoded entry member
          obtain ⟨rfl,_⟩ := ok_pair recoded
          obtain ⟨bytes,listed,same⟩ := List.mem_map.mp (List.of_mem_zip member).2
          rw [List.eq_of_mem_replicate listed] at same
          exact ⟨data,block,same.symm,read,known⟩
        · rintro ⟨⟩
        · rintro p _ ⟨⟩
        · intro block' u _ decoded
          obtain ⟨rfl,_⟩ := ok_pair decoded
          exact known
        · intro block' u _ _
          split
          · rfl
          · exact ⟨by omega,block,read⟩
      · intro t r answered refused
        exact absurd (ok_pair (ran.symm.trans answered)).2.symm refused
    · refine ⟨faithful,?_,?_,?_⟩
      · intro p panicked
        cases ran.symm.trans panicked
      · intro t accepted
        cases (ok_pair (ran.symm.trans accepted)).2
      · intro t r answered _
        obtain ⟨rfl,_⟩ := ok_pair (ran.symm.trans answered)
        exact empty

/-! ### The network -/

/-- A receiver of full blocks in a run. -/
def RelayedRun (blocks : List Block) (node : Receiver BaselineProtocol K) : Prop :=
  Run (fun _ s => s.block = none) (fun _ s => s.block = none) (Faithful blocks) (Relayed blocks) Last node

theorem Known.grows {blocks : List Block} {n : Nat} {block : Block} (known : Known blocks n block) (new : Block) :
    Known (blocks ++ [new]) n block :=
  ⟨(List.getElem?_append_left (List.getElem?_eq_some_iff.mp known.1).1).trans known.1,known.2⟩

theorem Faithful.grows {blocks : List Block} {item : Item} (faithful : Faithful blocks item) (new : Block) :
    Faithful (blocks ++ [new]) item := by
  obtain ⟨channel,n,data⟩ := item
  cases channel with
  | Announce => trivial
  | Data => exact fun block read => (faithful block read).grows new

theorem RelayedRun.grows {blocks : List Block} {node : Receiver BaselineProtocol K} (run : RelayedRun blocks node)
    (new : Block) : RelayedRun (blocks ++ [new]) node := by
  refine Run.mono (fun _ _ idle => idle) (fun _ _ busy => busy) (fun _ faithful => faithful.grows new) ?_
    (fun _ fault => fault) run
  intro event relayed
  cases event with
  | ingest s channel n data => exact Faithful.grows relayed new
  | announced msg => trivial
  | decoded n block => exact Known.grows relayed new
  | forwarded n batch =>
    intro entry member
    obtain ⟨data,block,same,read,known⟩ := relayed entry member
    exact ⟨data,block,same,read,known.grows new⟩

theorem RelayedRun.logged {blocks : List Block} {node : Receiver BaselineProtocol K} (run : RelayedRun blocks node) :
    ∀ event ∈ node.log, Relayed blocks event := by
  rcases run with ⟨_,steady⟩ | ⟨_,stopped⟩
  · exact steady.logged
  · exact stopped.logged

/-- What is decoded from a block as it is written is this block, if the codec reads it. -/
theorem decode_serialize [RangedBlockCodec] {block other : Block} (writable : block.transactions.length < 2 ^ 32)
    (read : Block.decode block.serialize = .ok other) :
    other = block ∧ block.transactions.length ≤ MAX_TRANSACTIONS_BYTES := by
  have ran : Block.read_cfg.run block.serialize = .ok (other,[]) := by
    unfold Block.decode at read
    split at read
    · cases read
    · rename_i b ran
      obtain rfl := Except.ok.inj read
      exact ran
    · cases read
  have fits : block.transactions.length ≤ MAX_TRANSACTIONS_BYTES := by
    by_contra large
    exact Block.large_unread (by omega) writable (.inl (List.prefix_refl _)) ran
  exact ⟨Block.read_prefix fits (.inl (List.prefix_refl _)) ran,fits⟩

/-- What holds of a network with full blocks at every moment. -/
structure Broadcasts (config : Config BaselineProtocol K) (net : Network BaselineProtocol K) : Prop where
  receivers : ∀ k, RelayedRun net.blocks (net.receivers k)
  sent : ∀ e ∈ net.sent, Arrives (Faithful net.blocks) e.channel e.msg
  sizes : ∀ block ∈ net.blocks, block.transactions.length = config.block_size
  numbers : ∀ n block, net.blocks[n]? = some block → block.number = UInt64.ofNat n
  count : net.blocks.length ≤ config.num_blocks config.source

variable [RangedBlockCodec] {config : Config BaselineProtocol K} {net : Network BaselineProtocol K}

theorem Broadcasts.propose (writable : config.block_size < 2 ^ 32) (limited : config.num_blocks config.source < 2 ^ 64)
    (broadcasts : Broadcasts config net) {next : Network BaselineProtocol K}
    (ran : net.propose BaselineProtocol.protocol config = some next) : Broadcasts config next := by
  obtain ⟨proposer,proposed,more,made,rfl⟩ := Network.propose_cases ran
  obtain ⟨proposal,rest,payloads,block,_,packets⟩ := propose_block_ok made
  obtain ⟨result,_⟩ := ok_pair payloads
  obtain ⟨_,rfl⟩ := Prod.mk.inj result
  have size : proposed.block.transactions.length = config.block_size := by
    rw [block]; exact generate_random_block_size _ _ _
  have known : (net.blocks ++ [proposed.block])[net.blocks.length]? = some proposed.block := by simp
  have number : net.blocks.length < 2 ^ 64 := by omega
  refine ⟨fun k => (broadcasts.receivers k).grows proposed.block,?_,?_,?_,?_⟩
  · intro e member
    rcases List.mem_append.mp member with old | new
    · exact fun long => (broadcasts.sent e old long).grows proposed.block
    · rcases List.mem_cons.mp new with rfl | packet
      · exact fun _ => trivial
      · obtain ⟨entry,listed,rfl⟩ := List.mem_map.mp packet
        obtain ⟨payload,inside,same⟩ := packets entry listed
        rw [List.eq_of_mem_replicate inside] at same
        obtain ⟨first,second⟩ := message_number number proposed.block.serialize
        intro _
        simp only [same,first,second]
        intro other read
        obtain ⟨rfl,fits⟩ := decode_serialize (by rw [size]; exact writable) read
        exact ⟨known,fits⟩
  · intro b member
    rcases List.mem_append.mp member with old | new
    · exact broadcasts.sizes b old
    · rw [List.mem_singleton.mp new]; exact size
  · intro n b found
    by_cases old : n < net.blocks.length
    · rw [List.getElem?_append_left old] at found
      exact broadcasts.numbers n b found
    · have last : n = net.blocks.length := by
        have inside := (List.getElem?_eq_some_iff.mp found).1
        rw [List.length_append,List.length_singleton] at inside
        omega
      subst last
      obtain rfl := Option.some.inj (known.symm.trans found)
      rw [block]
      exact generate_random_block_number _ _ _
  · rw [List.length_append,List.length_singleton]
    omega

theorem Broadcasts.number (limited : config.num_blocks config.source < 2 ^ 64) (broadcasts : Broadcasts config net) {n : Nat}
    {block : Block} (known : Known net.blocks n block) : n + 1 < 2 ^ 64 := by
  have inside := (List.getElem?_eq_some_iff.mp known.1).1
  have bound := broadcasts.count
  omega

theorem Broadcasts.deliver (limited : config.num_blocks config.source < 2 ^ 64) (broadcasts : Broadcasts config net) (k : K)
    {e : Envelope K} (flying : e ∈ net.sent) :
    Broadcasts config (net.deliver BaselineProtocol.protocol config k e) := by
  have run : RelayedRun net.blocks
      ((net.receivers k).receive BaselineProtocol.protocol (config.num_blocks k) e.sender e.channel e.msg) :=
    receive_run (relayed_keeps net.blocks) (config.num_blocks k) e.sender (broadcasts.receivers k) (broadcasts.sent e flying)
  refine ⟨?_,?_,broadcasts.sizes,broadcasts.numbers,broadcasts.count⟩
  · intro j
    by_cases same : j = k
    · subst same
      simpa [Network.deliver] using run
    · simpa [Network.deliver,same] using broadcasts.receivers j
  · intro e' member
    rcases List.mem_append.mp member with old | new
    · exact broadcasts.sent e' old
    · obtain ⟨event,listed,emitted⟩ := List.mem_flatMap.mp new
      have relayed := run.logged event (List.mem_of_mem_drop listed)
      cases event with
      | ingest s channel n data => cases emitted
      | decoded n block => cases emitted
      | announced msg =>
        obtain rfl := List.mem_singleton.mp emitted
        exact fun _ => trivial
      | forwarded n batch =>
        obtain ⟨entry,inside,rfl⟩ := List.mem_map.mp emitted
        obtain ⟨data,block,same,read,known⟩ := relayed entry inside
        have small := broadcasts.number limited known
        obtain ⟨first,second⟩ := message_number (n := n) (by omega) data
        intro _
        simp only [same,first,second]
        intro other read'
        obtain rfl := Except.ok.inj (read.symm.trans read')
        exact known

/-- Every message in every run is a block of the proposer, if it is one at all. -/
theorem run_relayed (writable : config.block_size < 2 ^ 32) (limited : config.num_blocks config.source < 2 ^ 64)
    (fresh : ∀ k, config.protocol k = BaselineProtocol.new) {actions : List (Action K)}
    (ran : config.start.run BaselineProtocol.protocol config actions = some net) : Broadcasts config net := by
  refine Network.run_keeps BaselineProtocol.protocol config (fun net action next broadcasts stepped => ?_) ?_ ran
  · cases action with
    | propose => exact broadcasts.propose writable limited stepped
    | deliver k i =>
      obtain ⟨_,found,_,_,rfl⟩ := Network.deliver_cases stepped
      exact broadcasts.deliver limited k (List.mem_of_getElem? found)
  · refine ⟨fun k => run_new _ rfl rfl ?_,by simp [Config.start],by simp [Config.start],by simp [Config.start],
      by simp [Config.start]⟩
    show (config.protocol k).block = none
    rw [fresh k]
    rfl

/-- No receiver has panicked. -/
theorem Broadcasts.alive (limited : config.num_blocks config.source < 2 ^ 64) (broadcasts : Broadcasts config net) (k : K) :
    (net.receivers k).panicked = none := by
  rcases broadcasts.receivers k with ⟨alive,_⟩ | ⟨_,stopped⟩
  · exact alive
  · obtain ⟨event,member,fault⟩ := stopped.fault
    have relayed := stopped.logged event member
    cases event with
    | announced msg => cases fault
    | decoded n block => cases fault
    | forwarded n batch => cases fault
    | ingest s channel n data =>
      cases channel with
      | Announce => cases fault
      | Data =>
        obtain ⟨last,block,read⟩ := fault
        have small := broadcasts.number limited (relayed block read)
        omega

theorem Broadcasts.known (broadcasts : Broadcasts config net) (k : K) :
    ∀ pair ∈ decodes (net.receivers k).log, Known net.blocks pair.1 pair.2 := by
  rintro ⟨n,block⟩ member
  obtain ⟨event,listed,same⟩ := List.mem_filterMap.mp member
  have relayed := (broadcasts.receivers k).logged event listed
  cases event with
  | ingest s channel n data => cases same
  | announced msg => cases same
  | forwarded n batch => cases same
  | decoded n' block' =>
    obtain ⟨rfl,rfl⟩ := Prod.mk.inj (Option.some.inj same)
    exact relayed

theorem Broadcasts.agreed (limited : config.num_blocks config.source < 2 ^ 64) (broadcasts : Broadcasts config net) :
    Agreed net := by
  have alive := broadcasts.alive limited
  have steady : ∀ k, (decodes (net.receivers k).log).map Prod.fst = List.range (net.receivers k).decoded_count := by
    intro k
    rcases broadcasts.receivers k with ⟨_,steady⟩ | ⟨dead,_⟩
    · exact steady.numbered
    · rw [alive k] at dead
      cases dead
  refine ⟨broadcasts.numbers,steady,fun k => ?_,alive⟩
  have count : (decodes (net.receivers k).log).length = (net.receivers k).decoded_count := by
    simpa using congrArg List.length (steady k)
  exact numbered_prefix (by rw [count]; exact steady k) fun pair member => (broadcasts.known k pair member).1

/-- In every run with full blocks the receivers agree with the proposer, and decode nothing when the
    blocks are larger than the codec reads. -/
theorem baseline_agreement (writable : config.block_size < 2 ^ 32) (limited : config.num_blocks config.source < 2 ^ 64)
    (fresh : ∀ k, config.protocol k = BaselineProtocol.new) {actions : List (Action K)}
    (ran : config.start.run BaselineProtocol.protocol config actions = some net) :
    Agreed net ∧ (MAX_TRANSACTIONS_BYTES < config.block_size → ∀ k, (net.receivers k).decoded_count = 0) := by
  have broadcasts := run_relayed writable limited fresh ran
  have agreed := broadcasts.agreed limited
  refine ⟨agreed,fun large k => ?_⟩
  rw [← agreed.counted k,List.length_eq_zero_iff,List.eq_nil_iff_forall_not_mem]
  intro pair member
  obtain ⟨found,fits⟩ := broadcasts.known k pair member
  have size := broadcasts.sizes pair.2 (List.mem_of_getElem? found)
  omega

end

section
open Rlnc.Reference

/-- A proposer and two receivers; the second one hears of the block from the first. -/
private def three_full : Config BaselineProtocol Nat :=
  ⟨0,fun _ => BaselineProtocol.new,fun k => if k = 1 then [0,2] else [1],fun _ => 1,fun _ => Stream'.const 1,fun _ => 1,3⟩

/-- The second receiver has the block before its announcement. -/
private def handed_on : List (Action Nat) := [.propose,.deliver 1 0,.deliver 1 1,.deliver 2 3,.deliver 2 0]

theorem baseline_agreement_three :
    ∃ net, three_full.start.run BaselineProtocol.protocol three_full handed_on = some net ∧
      (net.receivers 2).decoded_count = 1 ∧ Agreed net := by
  have seen : (three_full.start.run BaselineProtocol.protocol three_full handed_on).map
      (fun net => (net.receivers 2).decoded_count) = some 1 := by decide +kernel
  obtain ⟨net,ran,count⟩ := Option.map_eq_some_iff.mp seen
  exact ⟨net,ran,count,(baseline_agreement (by decide) (by decide) (fun _ => rfl) ran).1⟩

end

end Rlnc.Broadcast
