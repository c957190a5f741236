import Rlnc.Agreement
import Rlnc.PedersenProtocol

/-!
The network of one proposer and its receivers. Messages that were sent stay in
flight, and a step delivers any of them to a node that it reaches, so a message
may be delivered in any order, often or never. Everything in flight is honest in
every run (`run_honest`), hence each receiver decodes the blocks of the proposer in
their order and never panics (`honest_agreement`).
-/
namespace Rlnc
open Rlnc.Panics Rlnc.Combination Rlnc.Wire Rlnc.Packing Rlnc.Coding Rlnc.Draws Rlnc.Blocks Rlnc.Groups Rlnc.Integrity
open Rlnc.Bfkw Rlnc.Pedersen Rlnc.Protocols Rlnc.Actor Rlnc.Runs Rlnc.CodedRuns Rlnc.Agreement
open Rlnc.PedersenProtocol Rlnc.BfkwProtocol
set_option linter.unusedSectionVars false

namespace Network

/-- A message in flight, to one peer or to all. -/
structure Envelope (K : Type) where
  sender : K
  recipient : Option K
  channel : Channel
  msg : Bytes

/-- Who proposes, and how each node is configured. -/
structure Config (σ K : Type) where
  source : K
  protocol : K → σ
  peers : K → List K
  mesh_degree : K → Nat
  rng : K → Rng
  num_blocks : K → Nat
  block_size : Nat

end Network

structure Network (σ K : Type) where
  proposer : NodeActor σ K
  blocks : List Block
  receivers : K → Receiver σ K
  sent : List (Network.Envelope K)

namespace Network

/-- The proposer proposes its next block, or a message in flight is delivered. -/
inductive Action (K : Type)
  | propose
  | deliver (k : K) (i : Nat)
deriving DecidableEq

/-- The messages that an event puts in flight. -/
def outgoing {σ K : Type} (k : K) : Event σ K → List (Envelope K)
  | .announced msg => [⟨k,none,.Announce,msg⟩]
  | .forwarded _ batch => batch.map fun entry => ⟨k,some entry.1,.Data,entry.2⟩
  | _ => []

theorem outgoing_sender {σ K : Type} {k : K} {event : Event σ K} {e : Envelope K} (member : e ∈ outgoing k event) :
    e.sender = k := by
  cases event with
  | ingest s channel n data => cases member
  | decoded n block => cases member
  | announced msg => rw [List.mem_singleton.mp member]
  | forwarded n batch =>
    obtain ⟨entry,_,rfl⟩ := List.mem_map.mp member
    rfl

/-- A broadcast reaches everyone else. -/
def Envelope.Reaches {K : Type} (self : Envelope K) (k : K) : Prop :=
  k ≠ self.sender ∧ (self.recipient = none ∨ self.recipient = some k)

instance {K : Type} [DecidableEq K] (e : Envelope K) (k : K) : Decidable (e.Reaches k) :=
  inferInstanceAs (Decidable (_ ∧ _))

section
variable {σ K : Type} [DecidableEq K] [SliceRandom]

/-- Every node at its start. -/
def Config.start (config : Config σ K) : Network σ K :=
  let node := fun k => NodeActor.new (config.protocol k) (config.peers k) (config.mesh_degree k) (config.rng k)
  ⟨node config.source,[],fun k => Receiver.new (node k),[]⟩

section
variable (P : Protocol σ) (config : Config σ K)

def propose (self : Network σ K) : Option (Network σ K) :=
  if self.blocks.length < config.num_blocks config.source then
    match propose_block P config.block_size self.proposer self.blocks.length with
    | .error _ => none
    | .ok (proposer,proposed) => some { self with
        proposer, blocks := self.blocks ++ [proposed.block],
        sent := self.sent ++ ⟨config.source,none,.Announce,proposed.ann_msg⟩ ::
          proposed.packets.map fun entry => ⟨config.source,some entry.1,.Data,entry.2⟩ }
  else none

def deliver (self : Network σ K) (k : K) (e : Envelope K) : Network σ K :=
  let before := self.receivers k
  let node := before.receive P (config.num_blocks k) e.sender e.channel e.msg
  { self with
    receivers := Function.update self.receivers k node,
    sent := self.sent ++ (node.log.drop before.log.length).flatMap (outgoing k) }

/-- The proposer does not read its messages. -/
def step (self : Network σ K) : Action K → Option (Network σ K)
  | .propose => self.propose P config
  | .deliver k i =>
    match self.sent[i]? with
    | none => none
    | some e => if k ≠ config.source ∧ e.Reaches k then some (self.deliver P config k e) else none

def run (self : Network σ K) (actions : List (Action K)) : Option (Network σ K) :=
  actions.foldlM (fun net action => net.step P config action) self

/-- What each step keeps holds after every run. -/
theorem run_keeps {Inv : Network σ K → Prop}
    (kept : ∀ net action next, Inv net → net.step P config action = some next → Inv next) {self net : Network σ K}
    {actions : List (Action K)} (start : Inv self) (ran : self.run P config actions = some net) : Inv net := by
  induction actions generalizing self with
  | nil =>
    obtain rfl := Option.some.inj ran
    exact start
  | cons action actions ih =>
    rw [run,List.foldlM_cons] at ran
    obtain ⟨middle,first,rest⟩ := Option.bind_eq_some_iff.mp ran
    exact ih (kept self action middle start first) rest

variable {P config} {self next : Network σ K}

/-- What a proposal does. -/
theorem propose_cases (ran : self.propose P config = some next) :
    ∃ proposer proposed, self.blocks.length < config.num_blocks config.source ∧
      propose_block P config.block_size self.proposer self.blocks.length = .ok (proposer,proposed) ∧
      next = { self with
        proposer, blocks := self.blocks ++ [proposed.block],
        sent := self.sent ++ ⟨config.source,none,.Announce,proposed.ann_msg⟩ ::
          proposed.packets.map fun entry => ⟨config.source,some entry.1,.Data,entry.2⟩ } := by
  unfold propose at ran
  split at ran
  case isFalse => cases ran
  rename_i more
  split at ran
  case h_1 => cases ran
  rename_i proposer proposed made
  exact ⟨proposer,proposed,more,made,(Option.some.inj ran).symm⟩

/-- What a delivery does. -/
theorem deliver_cases {k : K} {i : Nat} (ran : self.step P config (.deliver k i) = some next) :
    ∃ e, self.sent[i]? = some e ∧ k ≠ config.source ∧ e.Reaches k ∧ next = self.deliver P config k e := by
  simp only [step] at ran
  split at ran
  · cases ran
  · rename_i e found
    split at ran
    · rename_i goes
      exact ⟨e,found,goes.1,goes.2,(Option.some.inj ran).symm⟩
    · cases ran

/-- The messages that a node put in flight. -/
def posted (k : K) (sent : List (Envelope K)) : List (Envelope K) := sent.filter fun e => e.sender = k

/-- What a node does with a message adds nothing to what others put in flight. -/
theorem posted_deliver {j k : K} (other : k ≠ j) (e : Envelope K) :
    posted j (self.deliver P config k e).sent = posted j self.sent := by
  rw [deliver,posted,List.filter_append,← posted,List.append_right_eq_self,List.filter_eq_nil_iff]
  intro e' member own
  obtain ⟨event,_,emitted⟩ := List.mem_flatMap.mp member
  exact other ((outgoing_sender emitted).symm.trans (of_decide_eq_true own))

/-- What the proposer puts in flight for a block: the announcement, and its packets. -/
def proposal_of (source : K) (proposed : Proposed K) : List (Envelope K) :=
  ⟨source,none,.Announce,proposed.ann_msg⟩ :: proposed.packets.map fun entry => ⟨source,some entry.1,.Data,entry.2⟩

theorem posted_proposal (source : K) (proposed : Proposed K) (sent : List (Envelope K)) :
    posted source (sent ++ proposal_of source proposed) = posted source sent ++ proposal_of source proposed := by
  rw [posted,List.filter_append,← posted,List.append_cancel_left_eq,List.filter_eq_self]
  intro e member
  refine decide_eq_true ?_
  rcases List.mem_cons.mp member with rfl | packet
  · rfl
  · obtain ⟨entry,_,rfl⟩ := List.mem_map.mp packet
    rfl

end

end

/-! ### Honest messages -/

section
variable {F : Type} [Field F] [DecidableEq F] {N : Nat} {Context Proof Error : Type} [FixedCodec F] [LawfulScalar F]
  [IntegrityProof Proof] [Random F] [PackableField F] [LawfulPackable F] [FixedCodec UInt64] [BytesCodec]
  [LawfulBlockCodec] {σ K : Type} [DecidableEq K] [SliceRandom]

/-- The announced length is that of the proposed block, and packets encode it. -/
def honest (F : Type) [Field F] [DecidableEq F] [PackableField F] (N : Nat) (blocks : List Block) (m : Nat) : Terms F N :=
  block_terms (fun n byte_len => ∃ block, blocks[n]? = some block ∧ byte_len = block.serialize.length)
    (fun n => blocks[n]?) m

theorem honest_grows (blocks : List Block) (block : Block) (m : Nat) :
    (honest F N blocks m).Grows (honest F N (blocks ++ [block]) m) := by
  have kept : ∀ (n : Nat) (b : Block), blocks[n]? = some b → (blocks ++ [block])[n]? = some b := by
    intro n b known
    rw [List.getElem?_append_left (List.getElem?_eq_some_iff.mp known).1]
    exact known
  refine ⟨?_,?_,kept⟩
  · rintro n byte_len ⟨b,known,same⟩
    exact ⟨b,kept n b known,same⟩
  · rintro n c ⟨b,chunks,byte_len,known,split,encodes⟩
    exact ⟨b,chunks,byte_len,kept n b known,split,encodes⟩

/-- What holds of the network at every moment. -/
structure Honest (S : IntegrityScheme F N Context Proof Error) (view : σ → CodedState F N Context Proof)
    (derive : Nat → Context) (m : Nat) (config : Config σ K) (net : Network σ K) : Prop where
  receivers : ∀ k, CodedRun S view derive m (honest F N net.blocks m) (net.receivers k)
  sent : ∀ e ∈ net.sent, Arrives (Admissible S derive m (honest F N net.blocks m)) e.channel e.msg
  proposer : (view net.proposer.protocol).m = m
  sizes : ∀ block ∈ net.blocks, block.transactions.length = config.block_size
  numbers : ∀ n block, net.blocks[n]? = some block → block.number = UInt64.ofNat n
  count : net.blocks.length ≤ config.num_blocks config.source

variable {P : Protocol σ} {S : IntegrityScheme F N Context Proof Error} {view : σ → CodedState F N Context Proof}
  {derive : Nat → Context} {m : Nat} {config : Config σ K}

variable (derive) in
/-- The proposer's payloads are honest. -/
theorem proposed_admissible {block : Block} {blocks : List Block} (fits : block.transactions.length ≤ MAX_TRANSACTIONS_BYTES)
    {n : Nat} (known : blocks[n]? = some block) {chunks : List (Chunk F)} {byte_len : Nat}
    (split : block.as_chunks N m = .ok (chunks,byte_len)) :
    Admissible S derive m (honest F N blocks m) (.Announce,n,to_be 8 byte_len) ∧
    ∀ packet : SignedPacket F N Proof, Encodes m chunks packet.chunk →
      Admissible S derive m (honest F N blocks m) (.Data,n,packet.serialize) := by
  obtain ⟨_,length,_⟩ := Block.as_chunks_ok split
  refine ⟨fun _ => ⟨block,known,?_⟩,?_⟩
  · rw [List.take_of_length_le (to_be_length 8 _).le,of_be_to_be_of_lt,length]
    rw [length]
    exact Block.serialize_length_lt block fits
  · intro packet encodes q read _
    have same := (SignedPacket.deserialize_written packet [] (by rw [List.append_nil,encodes.width]; exact read)).1
    rw [same]
    exact ⟨block,chunks,byte_len,known,split,encodes⟩

theorem Honest.propose (coded : Coded P S view) (proposes : Proposes P view)
    (small : config.block_size ≤ MAX_TRANSACTIONS_BYTES) (limited : config.num_blocks config.source < 2 ^ 64)
    {net next : Network σ K} (honestly : Honest S view derive m config net)
    (ran : net.propose P config = some next) : Honest S view derive m config next := by
  obtain ⟨proposer,proposed,more,made,rfl⟩ := Network.propose_cases ran
  obtain ⟨proposal,rest,payloads,block,announced,packets⟩ := propose_block_ok made
  obtain ⟨wide,chunks,byte_len,split,announcement,each⟩ := proposes.propose _ _ _ _ _ _ _ payloads
  have width : (view (between_blocks P net.proposer net.blocks.length).protocol).m = m := by
    rcases between_blocks_protocol P net.proposer net.blocks.length with same | reset
    · rw [same]; exact honestly.proposer
    · rw [reset]; exact (coded.reset_fixed _).2.trans honestly.proposer
  rw [width] at split wide each
  have size : proposed.block.transactions.length = config.block_size := by
    rw [block]; exact generate_random_block_size _ _ _
  have known : (net.blocks ++ [proposed.block])[net.blocks.length]? = some proposed.block := by simp
  have number : net.blocks.length < 2 ^ 64 := by omega
  obtain ⟨here,coming⟩ := proposed_admissible (S := S) derive (size.trans_le small) known split
  have grows := honest_grows (F := F) (N := N) net.blocks proposed.block m
  refine ⟨fun k => (honestly.receivers k).grows grows,?_,wide,?_,?_,?_⟩
  · intro e member
    rcases List.mem_append.mp member with old | new
    · exact fun long => admissible_grows grows _ (honestly.sent e old long)
    · rcases List.mem_cons.mp new with rfl | packet
      · intro _
        obtain ⟨first,second⟩ := message_number number (to_be 8 byte_len)
        rw [announcement] at announced
        simp only [announced,first,second]
        exact here
      · obtain ⟨entry,listed,rfl⟩ := List.mem_map.mp packet
        intro _
        obtain ⟨payload,inside,same⟩ := packets entry listed
        obtain ⟨sent,rfl,encodes⟩ := each payload inside
        obtain ⟨first,second⟩ := message_number number sent.serialize
        simp only [same,first,second]
        exact coming sent encodes
  · intro b member
    rcases List.mem_append.mp member with old | new
    · exact honestly.sizes b old
    · rw [List.mem_singleton.mp new]; exact size
  · intro n b found
    by_cases old : n < net.blocks.length
    · rw [List.getElem?_append_left old] at found
      exact honestly.numbers n b found
    · have last : n = net.blocks.length := by
        have inside := (List.getElem?_eq_some_iff.mp found).1
        rw [List.length_append,List.length_singleton] at inside
        omega
      subst last
      obtain rfl := Option.some.inj (known.symm.trans found)
      rw [block]
      exact generate_random_block_number _ _ _
  · rw [List.length_append,List.length_singleton]
    omega

theorem Honest.deliver (coded : Coded P S view) (positive : 0 < m)
    (small : config.block_size ≤ MAX_TRANSACTIONS_BYTES) (limited : config.num_blocks config.source < 2 ^ 64)
    {net : Network σ K} (honestly : Honest S view derive m config net) (k : K) {e : Envelope K} (flying : e ∈ net.sent) :
    Honest S view derive m config (net.deliver P config k e) := by
  have lawful : Lawful S derive m (honest F N net.blocks m) :=
    block_terms_lawful _ (fun n block known => (honestly.sizes block (List.mem_of_getElem? known)).trans_le small)
  have run : CodedRun S view derive m (honest F N net.blocks m)
      ((net.receivers k).receive P (config.num_blocks k) e.sender e.channel e.msg) :=
    receive_run (coded_keeps coded lawful positive) (config.num_blocks k) e.sender (honestly.receivers k)
      (honestly.sent e flying)
  refine ⟨?_,?_,honestly.proposer,honestly.sizes,honestly.numbers,honestly.count⟩
  · intro j
    by_cases same : j = k
    · subst same
      simpa [Network.deliver] using run
    · simpa [Network.deliver,same] using honestly.receivers j
  · intro e' member
    rcases List.mem_append.mp member with old | new
    · exact honestly.sent e' old
    · obtain ⟨event,listed,sent⟩ := List.mem_flatMap.mp new
      have known := run.logged event (List.mem_of_mem_drop listed)
      have number : ∀ {n : Nat} {block : Block}, net.blocks[n]? = some block → n < 2 ^ 64 := by
        intro n block found
        have inside := (List.getElem?_eq_some_iff.mp found).1
        have bound := honestly.count
        omega
      intro _
      match event,known,sent with
      | .announced msg,⟨n,data,same,long,admissible⟩,sent =>
        obtain rfl := List.mem_singleton.mp sent
        obtain ⟨block,found,_⟩ := admissible long
        obtain ⟨first,second⟩ := message_number (number found) data
        simp only [same,first,second]
        exact admissible
      | .forwarded n batch,sends,sent =>
        obtain ⟨entry,inside,rfl⟩ := List.mem_map.mp sent
        obtain ⟨packet,same,wide,block,chunks,byte_len,found,split,encodes⟩ := sends entry inside
        obtain ⟨first,second⟩ := message_number (number found) packet.serialize
        simp only [same,first,second]
        have fits := (honestly.sizes block (List.mem_of_getElem? found)).trans_le small
        exact (proposed_admissible _ fits found split).2 packet encodes

theorem Honest.step (coded : Coded P S view) (proposes : Proposes P view) (positive : 0 < m)
    (small : config.block_size ≤ MAX_TRANSACTIONS_BYTES) (limited : config.num_blocks config.source < 2 ^ 64)
    {net next : Network σ K} (honestly : Honest S view derive m config net) {action : Action K}
    (ran : net.step P config action = some next) : Honest S view derive m config next := by
  cases action with
  | propose => exact honestly.propose coded proposes small limited ran
  | deliver k i =>
    obtain ⟨_,found,_,_,rfl⟩ := Network.deliver_cases ran
    exact honestly.deliver coded positive small limited k (List.mem_of_getElem? found)

/-- Nodes that start between two blocks, with the parameters of the network. -/
def Ready (view : σ → CodedState F N Context Proof) (derive : Nat → Context) (m : Nat) (config : Config σ K) : Prop :=
  ∀ k, Idle view derive m 0 (config.protocol k)

/-- Everything is honest in every run. -/
theorem run_honest (coded : Coded P S view) (proposes : Proposes P view) (positive : 0 < m)
    (small : config.block_size ≤ MAX_TRANSACTIONS_BYTES) (limited : config.num_blocks config.source < 2 ^ 64)
    (ready : Ready view derive m config) {net : Network σ K} {actions : List (Action K)}
    (ran : config.start.run P config actions = some net) : Honest S view derive m config net := by
  refine Network.run_keeps P config (fun net action next honestly ran =>
    honestly.step coded proposes positive small limited ran) ?_ ran
  refine ⟨?_,by simp [Config.start],(ready config.source).fixed.1,by simp [Config.start],by simp [Config.start],
    by simp [Config.start]⟩
  intro k
  exact run_new _ rfl rfl (ready k)

/-- No honest message makes a receiver panic. -/
theorem Honest.alive (total : Total S derive m) (small : config.block_size ≤ MAX_TRANSACTIONS_BYTES)
    (limited : config.num_blocks config.source < 2 ^ 64) {net : Network σ K}
    (honestly : Honest S view derive m config net) (k : K) : (net.receivers k).panicked = none := by
  rcases honestly.receivers k with ⟨alive,_⟩ | ⟨_,stopped⟩
  · exact alive
  · obtain ⟨event,member,fault⟩ := stopped.fault
    have known := stopped.logged event member
    exfalso
    match event,known,fault with
    | .ingest s .Data n data,⟨busy,admissible⟩,fault =>
      obtain ⟨block,found,length⟩ := busy.announced
      have inside := (List.getElem?_eq_some_iff.mp found).1
      have bound := honestly.count
      rcases fault with partly | last | ⟨packet,read,good,spans,originals,count,sizes,encoded,unreadable⟩
      · exact partly total
      · omega
      · obtain ⟨packets,stored,genuine⟩ := busy.stored
        have all : ∀ c ∈ (view s).decoder.coded_chunks ++ [packet.chunk], EncodesBlock (fun n => net.blocks[n]?) m n c := by
          intro c listed
          rcases List.mem_append.mp listed with old | new
          · rw [stored.chunks] at old
            obtain ⟨p,inside,rfl⟩ := List.mem_map.mp old
            exact genuine p inside
          · rw [List.mem_singleton.mp new]
            exact admissible packet read good
        obtain ⟨block',chunks,byte_len,found',split,encodes⟩ := encodes_same (by simp) all
        obtain rfl := Option.some.inj (found.symm.trans found')
        have parts := (Block.as_chunks_ok split).2.2
        obtain rfl : chunks = originals := BlockDecoder.encodes_unique spans ⟨parts.count,count⟩ ⟨parts.sizes,sizes⟩
          (fun c listed => ⟨encodes c listed,encoded c listed⟩)
        apply unreadable
        rw [length,← Block.from_chunks_runs_iff count]
        exact ⟨block,Block.from_chunks_as_chunks
          ((honestly.sizes block (List.mem_of_getElem? found)).trans_le small) parts⟩

/-- The blocks decoded by each receiver are the first blocks of the proposer, each
    once and in order, and no receiver panicked. -/
structure Agreed (net : Network σ K) : Prop where
  numbers : ∀ n block, net.blocks[n]? = some block → block.number = UInt64.ofNat n
  in_order : ∀ k, (decodes (net.receivers k).log).map Prod.fst = List.range (net.receivers k).decoded_count
  decoded : ∀ k, (decodes (net.receivers k).log).map Prod.snd <+: net.blocks
  alive : ∀ k, (net.receivers k).panicked = none

/-- Numbered elements of a list, in order from the first, are a prefix of it. -/
theorem numbered_prefix {α : Type} {xs : List α} {pairs : List (Nat × α)}
    (numbered : pairs.map Prod.fst = List.range pairs.length) (found : ∀ pair ∈ pairs, xs[pair.1]? = some pair.2) :
    pairs.map Prod.snd <+: xs := by
  rw [List.prefix_iff_getElem?]
  intro i inside
  rw [List.length_map] at inside
  have index : pairs[i].1 = i := by
    have entry := congrArg (·[i]?) numbered
    simpa [inside] using entry
  rw [List.getElem_map,← found pairs[i] (List.getElem_mem inside),index]

theorem Honest.agreed (total : Total S derive m) (small : config.block_size ≤ MAX_TRANSACTIONS_BYTES)
    (limited : config.num_blocks config.source < 2 ^ 64) {net : Network σ K}
    (honestly : Honest S view derive m config net) : Agreed net := by
  have alive := honestly.alive total small limited
  have steady : ∀ k, (decodes (net.receivers k).log).map Prod.fst = List.range (net.receivers k).decoded_count := by
    intro k
    rcases honestly.receivers k with ⟨_,steady⟩ | ⟨dead,_⟩
    · exact steady.numbered
    · rw [alive k] at dead
      cases dead
  refine ⟨honestly.numbers,steady,fun k => ?_,alive⟩
  have count : (decodes (net.receivers k).log).length = (net.receivers k).decoded_count := by
    simpa using congrArg List.length (steady k)
  apply numbered_prefix
  · rw [count]; exact steady k
  · rintro ⟨n,block⟩ member
    obtain ⟨event,listed,same⟩ := List.mem_filterMap.mp member
    have known := (honestly.receivers k).logged event listed
    match event,same,known with
    | .decoded n' block',same,known =>
      obtain ⟨rfl,rfl⟩ := Prod.mk.inj (Option.some.inj same)
      exact known

/-- In every run of a coded protocol the receivers agree with the proposer. -/
theorem run_agreed (coded : Coded P S view) (proposes : Proposes P view) (total : Total S derive m)
    (small : config.block_size ≤ MAX_TRANSACTIONS_BYTES) (limited : config.num_blocks config.source < 2 ^ 64)
    (ready : Ready view derive m config) {net : Network σ K} {actions : List (Action K)}
    (ran : config.start.run P config actions = some net) : Agreed net := by
  rcases Nat.eq_zero_or_pos m with rfl | positive
  · -- no block fits, so nothing is ever proposed
    have still : ∀ now action next, now = config.start → now.step P config action = some next → next = config.start := by
      rintro now action next rfl stepped
      cases action with
      | deliver k i => simp [Network.step,Config.start] at stepped
      | propose =>
        obtain ⟨proposer,proposed,_,made,rfl⟩ := Network.propose_cases stepped
        obtain ⟨proposal,rest,payloads,_⟩ := propose_block_ok made
        obtain ⟨_,chunks,byte_len,split,_⟩ := proposes.propose _ _ _ _ _ _ _ payloads
        have width : (view (between_blocks P config.start.proposer 0).protocol).m = 0 := (ready config.source).fixed.1
        rw [show config.start.blocks.length = 0 from rfl,width] at split
        have slots := (Block.as_chunks_ok split).1.slots
        omega
    have untouched : net = config.start := Network.run_keeps P config still rfl ran
    subst untouched
    exact ⟨by simp [Config.start],fun _ => rfl,fun _ => List.nil_prefix,fun _ => rfl⟩
  · exact (run_honest coded proposes positive small limited ready ran).agreed total small limited

end

section
variable {σ K : Type} {net : Network σ K}

theorem Agreed.counted (agreed : Agreed net) (k : K) :
    (decodes (net.receivers k).log).length = (net.receivers k).decoded_count := by
  simpa using congrArg List.length (agreed.in_order k)

/-- A receiver that has decoded as many blocks as were proposed has decoded just these. -/
theorem Agreed.decoded_all (agreed : Agreed net) {k : K}
    (all : net.blocks.length ≤ (net.receivers k).decoded_count) :
    decodes (net.receivers k).log = (List.range net.blocks.length).zip net.blocks := by
  have blocks : (decodes (net.receivers k).log).map Prod.snd = net.blocks :=
    (agreed.decoded k).eq_of_length_le (by rw [List.length_map,agreed.counted k]; exact all)
  have length : net.blocks.length = (net.receivers k).decoded_count := by rw [← agreed.counted k,← blocks,List.length_map]
  rw [length,← agreed.in_order k,← blocks,List.zip_map',List.map_id'']
  exact fun pair => rfl

end

/-! ### The two coded protocols -/

section
variable {F : Type} [Field F] [DecidableEq F] [FixedCodec F] [LawfulScalar F] [Random F] [PackableField F]
  [LawfulPackable F] [FixedCodec UInt32] [FixedCodec UInt64] [BytesCodec] [LawfulBlockCodec] [SliceRandom] {N : Nat}

section
variable {G S PublicKey Signature : Type} [AddCommGroup G] [DecidableEq G] [Module F G] [Space F G] [HashToGroup G]
  [FixedCodec G] [Verifier PublicKey Signature] [Signer S PublicKey Signature] [FixedCodec Signature]

/-- The context of every block. -/
def canonical_context (m : Nat) (proposer_pk : PublicKey) (_block_num : Nat) : PedersenContext G PublicKey :=
  ⟨CommitmentKey.canonical m,proposer_pk⟩

omit [LawfulScalar F] [LawfulPackable F] [LawfulBlockCodec] in
theorem pedersen_total (m : Nat) (proposer_pk : PublicKey) :
    Total (PedersenScheme F G PublicKey Signature N) (canonical_context m proposer_pk) m := by
  constructor
  · intro n packet wide
    exact ⟨_,verify_eq packet.chunk (wide.trans (by simp [canonical_context,CommitmentKey.canonical,
      CommitmentKey.deterministic])) packet.proof⟩
  · intro n packets decoder proofs alphas stored some_packet _
    obtain ⟨first,rest,rfl⟩ := List.exists_cons_of_ne_nil some_packet
    exact ⟨first.proof,index_of (by rw [stored.aligned]; rfl)⟩

end

section
variable {G1 G2 : Type} [AddCommGroup G1] [Module F G1] [AddCommGroup G2] [Module F G2] [Space F G2] [HashToGroup G2]
  [PairingGroup G1 G2] [FixedCodec G2]

omit [LawfulScalar F] [LawfulPackable F] [LawfulBlockCodec] in
/-- BFKW verification returns in every context with enough hash points. -/
theorem bfkw_total_of {derive : Nat → BfkwContext G1 G2} (enough : ∀ n, N ≤ (derive n).hash_points.length) (m : Nat) :
    Total (BfkwScheme F G1 G2 N) derive m := by
  constructor
  · intro n packet _
    simp only [BfkwScheme,BfkwScheme.verify,data_points,expect,if_pos (enough n),ok_bind,pure_eq]
    exact ⟨_,rfl⟩
  · intro n packets decoder proofs alphas _ _ _
    exact ⟨_,rfl⟩

omit [LawfulScalar F] [LawfulPackable F] [LawfulBlockCodec] in
theorem bfkw_total (m : Nat) (proposer_pk : G1) :
    Total (BfkwScheme F G1 G2 N) (number_context N m proposer_pk) m :=
  bfkw_total_of (fun n => by simp [number_context,derive_hash_points]) m

end

end

section
variable {F G S PublicKey Signature G1 G2 K : Type} [Field F] [DecidableEq F] [FixedCodec F] [Random F] [PackableField F]
  [FixedCodec UInt32] [FixedCodec UInt64] [BytesCodec] [AddCommGroup G] [DecidableEq G] [Module F G] [Space F G]
  [HashToGroup G] [FixedCodec G] [Verifier PublicKey Signature] [Signer S PublicKey Signature] [FixedCodec Signature]
  [AddCommGroup G1] [Module F G1] [AddCommGroup G2] [Module F G2] [Space F G2] [HashToGroup G2] [PairingGroup G1 G2]
  [FixedCodec G2] {N m : Nat}

theorem pedersen_ready {proposer_pk : PublicKey} {config : Config (PedersenProtocol F G S PublicKey Signature N) K}
    (fresh : ∀ k, ∃ signer, config.protocol k = PedersenProtocol.new m proposer_pk signer) :
    Ready PedersenProtocol.view (canonical_context m proposer_pk) m config := by
  intro k
  obtain ⟨signer,same⟩ := fresh k
  rw [same]
  exact ⟨⟨rfl,rfl⟩,rfl,rfl⟩

theorem bfkw_ready {proposer_pk : G1} {config : Config (BfkwProtocol F G1 G2 N) K}
    (fresh : ∀ k, ∃ signer, config.protocol k = BfkwProtocol.new m proposer_pk signer) :
    Ready BfkwProtocol.view (number_context N m proposer_pk) m config := by
  intro k
  obtain ⟨signer,same⟩ := fresh k
  rw [same]
  exact ⟨⟨rfl,rfl⟩,rfl,rfl⟩

end

/-- In every run from nodes whose protocols are `fresh`, with random blocks up to
    the maximum payload, the receivers agree with the proposer. -/
def AlwaysAgrees {σ : Type} (P : Protocol σ) (fresh : σ → Prop) (K : Type) [DecidableEq K] [SliceRandom] :
    Prop :=
  ∀ config : Config σ K, (∀ k, fresh (config.protocol k)) → config.block_size ≤ MAX_TRANSACTIONS_BYTES →
    config.num_blocks config.source < 2 ^ 64 → ∀ actions net, config.start.run P config actions = some net → Agreed net

/-- Agreement in an honest network, for both coded protocols. -/
theorem honest_agreement (F G S PublicKey Signature G1 G2 K : Type) (N : Nat) [Field F] [DecidableEq F] [FixedCodec F]
    [LawfulScalar F] [Random F] [PackableField F] [LawfulPackable F] [FixedCodec UInt32] [FixedCodec UInt64] [BytesCodec]
    [LawfulBlockCodec] [SliceRandom] [AddCommGroup G] [DecidableEq G] [Module F G] [Space F G] [HashToGroup G]
    [FixedCodec G] [Verifier PublicKey Signature] [Signer S PublicKey Signature] [FixedCodec Signature]
    [AddCommGroup G1] [Module F G1] [AddCommGroup G2] [Module F G2] [Space F G2] [HashToGroup G2] [PairingGroup G1 G2]
    [FixedCodec G2] [DecidableEq K] (m : Nat) (proposer_pk : PublicKey) (bfkw_pk : G1) :
    AlwaysAgrees (PedersenProtocol.protocol F G S PublicKey Signature N)
      (fun s => ∃ signer, s = PedersenProtocol.new m proposer_pk signer) K ∧
    AlwaysAgrees (BfkwProtocol.protocol F G1 G2 N) (fun s => ∃ signer, s = BfkwProtocol.new m bfkw_pk signer) K := by
  constructor
  · intro config fresh small limited actions net ran
    exact run_agreed PedersenProtocol.coded PedersenProtocol.proposes (pedersen_total m proposer_pk) small limited
      (pedersen_ready fresh) ran
  · intro config fresh small limited actions net ran
    exact run_agreed BfkwProtocol.coded BfkwProtocol.proposes (bfkw_total m bfkw_pk) small limited (bfkw_ready fresh) ran

section
open Rlnc.Scalars Rlnc.Reference

/-- A proposer and two receivers, all peers of each other, with a packet for each. -/
def three_nodes {σ : Type} (protocol : Option Bool → σ) : Config σ (Option Bool) :=
  ⟨none,protocol,fun k => [none,some false,some true].filter (· ≠ k),fun _ => 2,fun _ => powers,fun _ => 1,0⟩

def pedersen_three : Config (PedersenProtocol Scalar Scalar Bytes Bytes UInt64 2) (Option Bool) :=
  three_nodes fun k => PedersenProtocol.new 2 [7] (if k = none then some ⟨[7]⟩ else none)

def bfkw_three : Config (BfkwProtocol Scalar Scalar Scalar 2) (Option Bool) :=
  three_nodes fun k => BfkwProtocol.new 2 (scalar 3) (if k = none then some ⟨scalar 3,scalar 3⟩ else none)

/-- Each receiver takes its packet, the second one before the announcement, and what the other makes of it. -/
def passed_around : List (Action (Option Bool)) :=
  [.propose,.deliver (some false) 0,.deliver (some false) 2,.deliver (some true) 1,.deliver (some true) 0,.deliver (some true) 4,
    .deliver (some false) 6,.deliver (some true) 3,.deliver (some false) 5]

/-- Both receivers decode the block, each from its own packet and one that the other has mixed. -/
theorem honest_agreement_three :
    (∃ net, pedersen_three.start.run (PedersenProtocol.protocol Scalar Scalar Bytes Bytes UInt64 2) pedersen_three passed_around =
        some net ∧ (∀ k, k ≠ none → (net.receivers k).decoded_count = 1) ∧ Agreed net) ∧
    ∃ net, bfkw_three.start.run (BfkwProtocol.protocol Scalar Scalar Scalar 2) bfkw_three passed_around = some net ∧
        (∀ k, k ≠ none → (net.receivers k).decoded_count = 1) ∧ Agreed net := by
  have agree := honest_agreement Scalar Scalar Bytes Bytes UInt64 Scalar Scalar (Option Bool) 2 2 [7] (scalar 3)
  have pedersen : (pedersen_three.start.run (PedersenProtocol.protocol Scalar Scalar Bytes Bytes UInt64 2) pedersen_three
      passed_around).map (fun net => decide (∀ k, k ≠ none → (net.receivers k).decoded_count = 1)) = some true := by decide +kernel
  have bfkw : (bfkw_three.start.run (BfkwProtocol.protocol Scalar Scalar Scalar 2) bfkw_three
      passed_around).map (fun net => decide (∀ k, k ≠ none → (net.receivers k).decoded_count = 1)) = some true := by decide +kernel
  obtain ⟨net,ran,decoded⟩ := Option.map_eq_some_iff.mp pedersen
  obtain ⟨net',ran',decoded'⟩ := Option.map_eq_some_iff.mp bfkw
  refine ⟨⟨net,ran,of_decide_eq_true decoded,?_⟩,net',ran',of_decide_eq_true decoded',?_⟩
  · exact agree.1 pedersen_three (fun _ => ⟨_,rfl⟩) (Nat.zero_le _) (by decide) passed_around net ran
  · exact agree.2 bfkw_three (fun _ => ⟨_,rfl⟩) (Nat.zero_le _) (by decide) passed_around net' ran'

end

end Network

end Rlnc
