import Rlnc.Decodability

/-!
What a set of receivers can hold of a block. Whatever the topology, the mesh degrees, the draws
and the order of delivery, it lies in the span of the packets that were sent into the set from
outside (`run_cut`). So no rank exceeds what any cut between a receiver and the proposer lets
through (`cut_bound`), and no block is decoded of which the proposer sent fewer packets than
there are chunks (`proposer_bound`).
-/
namespace Rlnc.Cuts
open Rlnc.Panics Rlnc.Combination Rlnc.Wire Rlnc.Packing Rlnc.Coding Rlnc.Draws Rlnc.Blocks Rlnc.Groups Rlnc.Integrity
open Rlnc.Protocols Rlnc.Actor Rlnc.Runs Rlnc.CodedRuns Rlnc.Network Rlnc.Amplification Rlnc.Schedules Rlnc.Decodability
open Rlnc.Agreement (number_context)
open Rlnc.Pedersen Rlnc.Bfkw Rlnc.PedersenProtocol Rlnc.BfkwProtocol
set_option linter.unusedSectionVars false

/-! ### The messages that cross a cut -/

section
variable {K : Type}

/-- A data message of block `n` from outside of `U` to nodes of `U`. -/
def Crosses (U : K → Prop) (n : Nat) (e : Envelope K) : Prop :=
  e.channel = .Data ∧ ¬U e.sender ∧ (∀ k ∈ e.recipient, U k) ∧ number e.msg = n

instance (U : K → Prop) [DecidablePred U] (n : Nat) (e : Envelope K) : Decidable (Crosses U n e) :=
  inferInstanceAs (Decidable (_ ∧ _ ∧ _ ∧ _))

def crossing (U : K → Prop) [DecidablePred U] (n : Nat) (sent : List (Envelope K)) : List (Envelope K) :=
  sent.filter (Crosses U n)

variable {U : K → Prop} [DecidablePred U] {n : Nat}

@[simp] theorem crossing_append (sent more : List (Envelope K)) :
    crossing U n (sent ++ more) = crossing U n sent ++ crossing U n more := List.filter_append ..

theorem mem_crossing {sent : List (Envelope K)} {e : Envelope K} : e ∈ crossing U n sent ↔ e ∈ sent ∧ Crosses U n e := by
  simp [crossing]

end

/-! ### What the proposer sends -/

section
variable {σ K : Type} [DecidableEq K] [SliceRandom] {P : Protocol σ} {config : Config σ K} {net : Network σ K}

/-- The data messages of block `n` that node `k` sent. -/
def sent_by (k : K) (n : Nat) (sent : List (Envelope K)) : List (Envelope K) :=
  sent.filter fun e => e.sender = k ∧ e.channel = .Data ∧ number e.msg = n

theorem sent_by_none {k : K} {n : Nat} {sent : List (Envelope K)} :
    sent_by k n sent = [] ↔ ∀ e ∈ sent, e.sender = k → e.channel = .Data → number e.msg ≠ n := by
  simp [sent_by,List.filter_eq_nil_iff]

/-- Only the proposer sends from outside to its receivers. -/
theorem crossing_sent_by (source : K) (n : Nat) (sent : List (Envelope K)) :
    (crossing (· ≠ source) n sent).length ≤ (sent_by source n sent).length := by
  rw [crossing,sent_by,← List.countP_eq_length_filter,← List.countP_eq_length_filter]
  refine List.countP_mono_left fun e _ crosses => ?_
  obtain ⟨data_message,outside,_,numbered⟩ := of_decide_eq_true crosses
  exact decide_eq_true ⟨not_not.mp outside,data_message,numbered⟩

/-- What a receiver does adds nothing to what the proposer sent. -/
theorem sent_by_deliver {k : K} (receives : k ≠ config.source) (e : Envelope K) (n : Nat) :
    sent_by config.source n (net.deliver P config k e).sent = sent_by config.source n net.sent := by
  have of_block : ∀ sent : List (Envelope K), sent_by config.source n sent =
      (posted config.source sent).filter fun e => e.channel = .Data ∧ number e.msg = n := by
    intro sent
    rw [posted,List.filter_filter]
    exact List.filter_congr fun e _ => by simp [Bool.and_comm]
  rw [of_block,of_block,posted_deliver receives]

/-- A proposal adds its packets, all with the number of the new block. -/
theorem sent_by_propose (small : net.blocks.length < 2 ^ 64) {next : Network σ K} (ran : net.propose P config = some next) :
    ∃ proposed, propose_block P config.block_size net.proposer net.blocks.length = .ok (next.proposer,proposed) ∧
      next.blocks = net.blocks ++ [proposed.block] ∧ net.blocks.length < config.num_blocks config.source ∧
      (sent_by config.source net.blocks.length next.sent).length =
        (sent_by config.source net.blocks.length net.sent).length + proposed.packets.length ∧
      ∀ n, n ≠ net.blocks.length → sent_by config.source n next.sent = sent_by config.source n net.sent := by
  obtain ⟨proposer,proposed,more,made,rfl⟩ := Network.propose_cases ran
  obtain ⟨_,_,_,_,_,packets⟩ := propose_block_ok made
  have numbered : ∀ entry ∈ proposed.packets, number entry.2 = net.blocks.length := by
    intro entry member
    obtain ⟨payload,_,same⟩ := packets entry member
    rw [same]
    exact (message_number small payload).1
  refine ⟨proposed,made,rfl,more,?_,fun n other => ?_⟩
  · rw [sent_by,List.filter_append,List.length_append,← sent_by,List.filter_cons_of_neg (by simp),List.filter_eq_self.mpr,
      List.length_map]
    intro e member
    obtain ⟨entry,listed,rfl⟩ := List.mem_map.mp member
    exact decide_eq_true ⟨rfl,rfl,numbered entry listed⟩
  · rw [sent_by,List.filter_append,← sent_by,List.append_right_eq_self,← sent_by,sent_by_none]
    intro e member _ data_message
    rcases List.mem_cons.mp member with rfl | packet
    · cases data_message
    · obtain ⟨entry,listed,rfl⟩ := List.mem_map.mp packet
      rw [numbered entry listed]
      exact Ne.symm other

/-- The packets that the proposer can send of a block. -/
def capacity (config : Config σ K) : Nat := min (config.mesh_degree config.source) (config.peers config.source).length

/-- Of each block the proposer has sent no more than one packet to each of its targets. -/
structure Frugal (config : Config σ K) (net : Network σ K) : Prop where
  degree : net.proposer.mesh_degree = config.mesh_degree config.source
  peers : net.proposer.peers = config.peers config.source
  few : ∀ n, (sent_by config.source n net.sent).length ≤ capacity config
  unproposed : ∀ n, net.blocks.length ≤ n → sent_by config.source n net.sent = []
  count : net.blocks.length ≤ config.num_blocks config.source

variable [LawfulSliceRandom]

theorem Frugal.propose (limited : config.num_blocks config.source < 2 ^ 64) (frugal : Frugal config net) {next : Network σ K}
    (ran : net.propose P config = some next) : Frugal config next := by
  have bound := frugal.count
  obtain ⟨proposed,made,blocks,more,added,others⟩ := sent_by_propose (by omega) ran
  obtain ⟨degree,peers⟩ := propose_block_frame made
  have few := propose_block_few made
  have few' := propose_block_targets made
  rw [frugal.degree] at few degree
  rw [frugal.peers] at few' peers
  refine ⟨degree,peers,fun n => ?_,fun n later => ?_,?_⟩
  · by_cases new : n = net.blocks.length
    · subst new
      rw [added,frugal.unproposed _ le_rfl,capacity]
      simp only [List.length_nil]
      omega
    · rw [others n new]
      exact frugal.few n
  · rw [blocks,List.length_append,List.length_singleton] at later
    rw [others n (by omega)]
    exact frugal.unproposed n (by omega)
  · rw [blocks,List.length_append,List.length_singleton]
    omega

theorem run_frugal (limited : config.num_blocks config.source < 2 ^ 64) {actions : List (Action K)}
    (ran : config.start.run P config actions = some net) : Frugal config net := by
  refine Network.run_keeps P config (fun net action next frugal stepped => ?_) ?_ ran
  · cases action with
    | propose => exact frugal.propose limited stepped
    | deliver k i =>
      obtain ⟨_,_,receives,_,rfl⟩ := Network.deliver_cases stepped
      refine ⟨frugal.degree,frugal.peers,fun n => ?_,fun n later => ?_,frugal.count⟩
      · rw [sent_by_deliver receives]; exact frugal.few n
      · rw [sent_by_deliver receives]; exact frugal.unproposed n later
  · exact ⟨rfl,rfl,fun _ => Nat.zero_le _,fun _ _ => rfl,Nat.zero_le _⟩

end

/-! ### What crosses a cut -/

section
variable {F : Type} [Field F] [DecidableEq F] {N : Nat} {Context Proof Error : Type} [FixedCodec F]
  [LawfulScalar F] [IntegrityProof Proof] [Random F] [PackableField F] [FixedCodec UInt64] [BytesCodec] {σ K : Type}
  [DecidableEq K] [SliceRandom] {U : K → Prop} [DecidablePred U]

variable (Proof) in
/-- The coefficients of the packets of block `n` that crossed the cut. -/
def crossed (U : K → Prop) [DecidablePred U] (N m n : Nat) (sent : List (Envelope K)) : List (Fin N → F) :=
  (crossing U n sent).filterMap fun e => read_coefficients Proof N m (e.msg.drop 8)

variable (Proof) in
/-- Packets have their coefficients in the span of what crossed the cut, and a decoded block had enough of it. -/
def through (U : K → Prop) [DecidablePred U] (m : Nat) (sent : List (Envelope K)) : Terms F N where
  announced _ _ := True
  genuine n c := n < 2 ^ 64 ∧ c.coefficients ∈ Submodule.span F {x | x ∈ crossed (F := F) Proof U N m n sent}
  decoded n _ := N ≤ (crossing U n sent).length

variable {S : IntegrityScheme F N Context Proof Error} {derive : Nat → Context} {m : Nat}

variable (F Proof m) in
theorem crossed_length (n : Nat) (sent : List (Envelope K)) :
    (crossed (F := F) Proof U N m n sent).length ≤ (crossing U n sent).length := List.length_filterMap_le ..

theorem through_grows (sent more : List (Envelope K)) :
    (through (F := F) (N := N) Proof U m sent).Grows (through Proof U m (sent ++ more)) := by
  refine ⟨fun _ _ _ => trivial,?_,?_⟩
  · rintro n c ⟨small,inside⟩
    refine ⟨small,Submodule.span_mono ?_ inside⟩
    intro x member
    simp only [crossed,crossing_append,List.filterMap_append,Set.mem_ofPred_eq,List.mem_append]
    exact .inl member
  · intro n block enough
    show N ≤ (crossing U n (sent ++ more)).length
    rw [crossing_append,List.length_append]
    exact enough.trans (Nat.le_add_right ..)

theorem through_lawful (sent : List (Envelope K)) : Lawful S derive m (through Proof U m sent) where
  mixes _ _ _ _ _ _ stored some_packet genuine long mixed :=
    ⟨(genuine _ (List.head_mem some_packet)).1,mix_within stored some_packet (fun p listed => (genuine p listed).2) long mixed⟩
  decodes n _ _ _ _ _ _ stored _ complete genuine _ _ _ := by
    refine (spanning_length ?_).trans (crossed_length F Proof m n sent)
    rw [eq_top_iff,← (BlockDecoder.complete_iff_spans stored.sound).mp complete,coefficient_span,Submodule.span_le,
      stored.chunks]
    intro x member
    obtain ⟨c,listed,rfl⟩ := List.mem_map.mp member
    obtain ⟨p,inside,rfl⟩ := List.mem_map.mp listed
    exact (genuine p inside).2

/-- What comes from outside has crossed the cut. -/
theorem crossing_admissible {sent : List (Envelope K)} {e : Envelope K} (flying : e ∈ sent) (data_message : e.channel = .Data)
    (outside : ¬U e.sender) {k : K} (inside : U k) (reaches : e.Reaches k) :
    Arrives (Admissible S derive m (through Proof U m sent)) e.channel e.msg := by
  intro _
  rw [data_message]
  intro q read _
  have small := of_be_lt (e.msg.take 8)
  have short : (e.msg.take 8).length ≤ 8 := List.length_take_le ..
  refine ⟨small.trans_le ((Nat.pow_le_pow_right (by decide) short).trans (by decide)),Submodule.subset_span ?_⟩
  refine List.mem_filterMap.mpr ⟨e,mem_crossing.mpr ⟨flying,data_message,outside,?_,rfl⟩,?_⟩
  · intro j listed
    rcases reaches.2 with all | one
    · rw [all] at listed
      cases listed
    · rw [one] at listed
      cases listed
      exact inside
  · simp only [read_coefficients,read]

/-! ### What is behind a cut -/

/-- What the receivers of `U` hold has crossed the cut. -/
structure CutOff (S : IntegrityScheme F N Context Proof Error) (view : σ → CodedState F N Context Proof)
    (derive : Nat → Context) (m : Nat) (U : K → Prop) [DecidablePred U] (net : Network σ K) : Prop where
  receivers : ∀ k, U k → CodedRun S view derive m (through Proof U m net.sent) (net.receivers k)
  sent : ∀ e ∈ net.sent, ∀ k, U k → e.Reaches k → Arrives (Admissible S derive m (through Proof U m net.sent)) e.channel e.msg

variable {view : σ → CodedState F N Context Proof} {P : Protocol σ} {config : Config σ K} {net : Network σ K}

theorem CutOff.deliver (coded : Coded P S view) (positive : 0 < m) (cut : CutOff S view derive m U net) {k : K} {e : Envelope K}
    (flying : e ∈ net.sent) (reaches : e.Reaches k) : CutOff S view derive m U (net.deliver P config k e) := by
  obtain ⟨more,emitted,sent⟩ : ∃ more, (∀ e' ∈ more, ∃ event ∈ ((net.receivers k).receive P (config.num_blocks k) e.sender
      e.channel e.msg).log, e' ∈ outgoing k event) ∧ (net.deliver P config k e).sent = net.sent ++ more := by
    refine ⟨_,fun e' member => ?_,rfl⟩
    obtain ⟨event,listed,emitted⟩ := List.mem_flatMap.mp member
    exact ⟨event,List.mem_of_mem_drop listed,emitted⟩
  have grows : (through (F := F) (N := N) Proof U m net.sent).Grows (through Proof U m (net.sent ++ more)) :=
    through_grows net.sent more
  have run : U k → CodedRun S view derive m (through Proof U m net.sent)
      ((net.receivers k).receive P (config.num_blocks k) e.sender e.channel e.msg) := fun inside =>
    receive_run (coded_keeps coded (through_lawful net.sent) positive) (config.num_blocks k) e.sender
      (cut.receivers k inside) (cut.sent e flying k inside reaches)
  constructor
  · intro j inside
    rw [sent]
    by_cases same : j = k
    · subst same
      rw [deliver_here]
      exact (run inside).grows grows
    · rw [deliver_elsewhere net e same]
      exact (cut.receivers j inside).grows grows
  · intro e' member j inside reaches'
    rw [sent] at member ⊢
    rcases List.mem_append.mp member with old | new
    · exact fun long => admissible_grows grows _ (cut.sent e' old j inside reaches' long)
    · obtain ⟨event,listed,from_event⟩ := emitted e' new
      cases event with
      | ingest s channel n data => cases from_event
      | decoded n block => cases from_event
      | announced msg =>
        obtain rfl := List.mem_singleton.mp from_event
        exact fun _ _ => trivial
      | forwarded n batch =>
        obtain ⟨entry,here,rfl⟩ := List.mem_map.mp from_event
        by_cases own : U k
        · -- a receiver of the set mixes what has crossed
          have known := (run own).logged _ listed
          obtain ⟨packet,same,wide,small,genuine⟩ := known entry here
          obtain ⟨first,second⟩ := message_number small packet.serialize
          intro _
          simp only [same,first,second]
          intro q read _
          have chunk_same := (SignedPacket.deserialize_written packet [] (by rw [List.append_nil,wide]; exact read)).1
          rw [chunk_same]
          exact grows.genuine n packet.chunk ⟨small,genuine⟩
        · exact crossing_admissible (List.mem_append_right _ new) rfl own inside reaches'

theorem CutOff.propose (outside : ¬U config.source) (cut : CutOff S view derive m U net) {next : Network σ K}
    (ran : net.propose P config = some next) : CutOff S view derive m U next := by
  obtain ⟨_,_,_,_,rfl⟩ := Network.propose_cases ran
  constructor
  · exact fun k inside => (cut.receivers k inside).grows (through_grows net.sent _)
  · intro e member k inside reaches
    rcases List.mem_append.mp member with old | new
    · exact fun long => admissible_grows (through_grows net.sent _) _ (cut.sent e old k inside reaches long)
    · rcases List.mem_cons.mp new with rfl | packet
      · exact fun _ _ => trivial
      · obtain ⟨entry,listed,rfl⟩ := List.mem_map.mp packet
        exact crossing_admissible member rfl outside inside reaches

/-- In every run what is held behind a cut has crossed it. -/
theorem run_cut (coded : Coded P S view) (positive : 0 < m) (ready : Ready view derive m config) (outside : ¬U config.source)
    {actions : List (Action K)} (ran : config.start.run P config actions = some net) : CutOff S view derive m U net := by
  refine Network.run_keeps P config (fun net action next cut stepped => ?_) ?_ ran
  · cases action with
    | propose => exact cut.propose outside stepped
    | deliver k i =>
      obtain ⟨_,found,_,reaches,rfl⟩ := Network.deliver_cases stepped
      exact cut.deliver coded positive (List.mem_of_getElem? found) reaches
  · exact ⟨fun k _ => run_new _ rfl rfl (ready k),by simp [Config.start]⟩

/-- A protocol that takes packets holds no more than has crossed. -/
theorem busy_rank {sent : List (Envelope K)} {n : Nat} {s : σ} (busy : Busy S view derive m (through Proof U m sent) n s) :
    (view s).decoder.rank ≤ (crossing U n sent).length := by
  obtain ⟨packets,stored,genuine⟩ := busy.stored
  refine le_trans ?_ (crossed_length (N := N) F Proof m n sent)
  have counted : ((view s).decoder.coded_chunks.map CodedChunk.coefficients).length = (view s).decoder.coded_chunks.length :=
    List.length_map _
  rw [BlockDecoder.rank_eq stored.sound,← counted]
  refine (BlockDecoder.innovative stored.sound).length_le_of_span fun x member => ?_
  rw [stored.chunks] at member
  obtain ⟨c,listed,rfl⟩ := List.mem_map.mp member
  obtain ⟨p,inside,rfl⟩ := List.mem_map.mp listed
  exact (genuine p inside).2

/-- Behind a cut a rank is at most what has crossed, and a block is decoded when that is enough. -/
theorem CutOff.bounds (cut : CutOff S view derive m U net) {k : K} (inside : U k) :
    ((net.receivers k).panicked = none → (view (net.receivers k).protocol).decoder.rank ≤
      (crossing U (net.receivers k).state.current_block net.sent).length) ∧
    ∀ n block, .decoded n block ∈ (net.receivers k).log → N ≤ (crossing U n net.sent).length := by
  constructor
  · intro alive
    rcases cut.receivers k inside with ⟨_,steady⟩ | ⟨dead,_⟩
    · cases state : (net.receivers k).state with
      | Init n =>
        have waits := steady.waiting n state
        rw [waits.decoder,BlockDecoder.rank_eq BlockDecoder.sound_new]
        exact Nat.zero_le _
      | Decoding n => exact busy_rank (steady.working n state)
    · rw [alive] at dead
      cases dead
  · intro n block member
    exact (cut.receivers k inside).logged _ member

/-- No receiver gets a higher rank than the proposer sends packets, or decodes a block with more chunks. -/
theorem run_proposer_bound [LawfulSliceRandom] (coded : Coded P S view) (positive : 0 < m) (ready : Ready view derive m config)
    (limited : config.num_blocks config.source < 2 ^ 64) {actions : List (Action K)}
    (ran : config.start.run P config actions = some net) {k : K} (receives : k ≠ config.source) :
    ((net.receivers k).panicked = none → (view (net.receivers k).protocol).decoder.rank ≤ capacity config) ∧
    ∀ n block, .decoded n block ∈ (net.receivers k).log → N ≤ capacity config := by
  have frugal := run_frugal limited ran
  obtain ⟨ranks,decoded⟩ := (run_cut (U := (· ≠ config.source)) coded positive ready (by simp) ran).bounds receives
  have few := fun n => (crossing_sent_by config.source n net.sent).trans (frugal.few n)
  exact ⟨fun alive => (ranks alive).trans (few _),fun n block member => (decoded n block member).trans (few n)⟩

end

/-! ### The two coded protocols -/

/-- In every run no receiver of a set away from the proposer has a higher rank than data messages
    of its block were sent into the set, and it has decoded only blocks with no more chunks. -/
def CutBounded {σ : Type} (P : Protocol σ) (rank : σ → Nat) (N : Nat) (fresh : σ → Prop) (K : Type) [DecidableEq K]
    [SliceRandom] : Prop :=
  ∀ (config : Config σ K) (U : K → Prop) [DecidablePred U], (∀ k, fresh (config.protocol k)) → ¬U config.source →
    ∀ actions net, config.start.run P config actions = some net → ∀ k, U k →
      ((net.receivers k).panicked = none → rank (net.receivers k).protocol ≤
        (crossing U (net.receivers k).state.current_block net.sent).length) ∧
      ∀ n block, .decoded n block ∈ (net.receivers k).log → N ≤ (crossing U n net.sent).length

/-- In every run, with whatever topology and degrees, no receiver has a higher rank than the proposer
    sends packets of a block, and it has decoded only blocks with no more chunks. -/
def ProposerBounded {σ : Type} (P : Protocol σ) (rank : σ → Nat) (N : Nat) (fresh : σ → Prop) (K : Type) [DecidableEq K]
    [SliceRandom] : Prop :=
  ∀ config : Config σ K, (∀ k, fresh (config.protocol k)) → config.num_blocks config.source < 2 ^ 64 →
    ∀ actions net, config.start.run P config actions = some net → ∀ k, k ≠ config.source →
      ((net.receivers k).panicked = none → rank (net.receivers k).protocol ≤ capacity config) ∧
      ∀ n block, .decoded n block ∈ (net.receivers k).log → N ≤ capacity config

section
variable (F G S PublicKey Signature G1 G2 K : Type) (N : Nat) [Field F] [DecidableEq F] [FixedCodec F]
  [LawfulScalar F] [Random F] [PackableField F] [FixedCodec UInt32] [FixedCodec UInt64] [BytesCodec]
  [SliceRandom] [AddCommGroup G] [DecidableEq G] [Module F G] [Space F G] [HashToGroup G]
  [FixedCodec G] [Verifier PublicKey Signature] [Signer S PublicKey Signature] [FixedCodec Signature]
  [AddCommGroup G1] [Module F G1] [AddCommGroup G2] [Module F G2] [Space F G2] [HashToGroup G2] [PairingGroup G1 G2]
  [FixedCodec G2] [DecidableEq K] (m : Nat) (proposer_pk : PublicKey) (bfkw_pk : G1)

/-- Cuts bound what receivers hold, for both coded protocols. -/
theorem cut_bound (positive : 0 < m) :
    CutBounded (PedersenProtocol.protocol F G S PublicKey Signature N) (fun s => s.decoder.rank) N
      (fun s => ∃ signer, s = PedersenProtocol.new m proposer_pk signer) K ∧
    CutBounded (BfkwProtocol.protocol F G1 G2 N) (fun s => s.decoder.rank) N
      (fun s => ∃ signer, s = BfkwProtocol.new m bfkw_pk signer) K := by
  constructor
  · intro config U _ fresh outside actions net ran k inside
    exact (run_cut PedersenProtocol.coded positive (pedersen_ready fresh) outside ran).bounds inside
  · intro config U _ fresh outside actions net ran k inside
    exact (run_cut BfkwProtocol.coded positive (bfkw_ready fresh) outside ran).bounds inside

/-- The packets of the proposer bound what receivers hold, for both coded protocols. -/
theorem proposer_bound [LawfulSliceRandom] (positive : 0 < m) :
    ProposerBounded (PedersenProtocol.protocol F G S PublicKey Signature N) (fun s => s.decoder.rank) N
      (fun s => ∃ signer, s = PedersenProtocol.new m proposer_pk signer) K ∧
    ProposerBounded (BfkwProtocol.protocol F G1 G2 N) (fun s => s.decoder.rank) N
      (fun s => ∃ signer, s = BfkwProtocol.new m bfkw_pk signer) K := by
  constructor
  · intro config fresh limited actions net ran k receives
    exact run_proposer_bound PedersenProtocol.coded positive (pedersen_ready fresh) limited ran receives
  · intro config fresh limited actions net ran k receives
    exact run_proposer_bound BfkwProtocol.coded positive (bfkw_ready fresh) limited ran receives

end

section
open Rlnc.Scalars Rlnc.Reference

/-- A proposer that reaches the third node through the second only. -/
private def line {σ : Type} (protocol : Nat → σ) : Config σ Nat :=
  ⟨0,protocol,fun k => if k = 1 then [0,2] else [1],fun _ => 2,fun _ => Stream'.const 1,fun _ => 1,0⟩

private def pedersen_line : Config (PedersenProtocol Scalar Scalar Bytes Bytes UInt64 2) Nat :=
  line fun k => PedersenProtocol.new 5 [7] (if k = 0 then some ⟨[7]⟩ else none)

private def bfkw_line : Config (BfkwProtocol Scalar Scalar Scalar 2) Nat :=
  line fun k => BfkwProtocol.new 5 (scalar 3) (if k = 0 then some ⟨scalar 3,scalar 3⟩ else none)

/-- Both nodes hear the announcement, and the packet is passed on. -/
private def passed_on : List (Action Nat) := [.propose,.deliver 1 0,.deliver 2 0,.deliver 1 1,.deliver 2 4]

/-- One packet came to the third node, whose rank is one; two would be needed. -/
theorem cut_bound_line :
    ∃ net, pedersen_line.start.run (PedersenProtocol.protocol Scalar Scalar Bytes Bytes UInt64 2) pedersen_line passed_on =
        some net ∧ (net.receivers 2).protocol.decoder.rank = 1 ∧ (crossing (· = 2) 0 net.sent).length = 1 ∧
      ∀ block, .decoded 0 block ∉ (net.receivers 2).log := by
  have seen : (pedersen_line.start.run (PedersenProtocol.protocol Scalar Scalar Bytes Bytes UInt64 2) pedersen_line
      passed_on).map (fun net => ((net.receivers 2).protocol.decoder.rank,(crossing (· = 2) 0 net.sent).length)) =
        some (1,1) := by decide +kernel
  obtain ⟨net,ran,counts⟩ := Option.map_eq_some_iff.mp seen
  obtain ⟨rank,count⟩ := Prod.mk.inj counts
  obtain ⟨_,decoded⟩ := (cut_bound Scalar Scalar Bytes Bytes UInt64 Scalar Scalar Nat 2 5 [7] (scalar 3) (by decide)).1
    pedersen_line (· = 2) (fun _ => ⟨_,rfl⟩) (by decide) passed_on net ran 2 rfl
  refine ⟨net,ran,rank,count,fun block member => ?_⟩
  have enough := decoded 0 block member
  omega

/-- The proposer has one peer, so nobody ever decodes two chunks. -/
theorem proposer_bound_line :
    ∃ net, bfkw_line.start.run (BfkwProtocol.protocol Scalar Scalar Scalar 2) bfkw_line passed_on = some net ∧
      (net.receivers 1).protocol.decoder.rank = 1 ∧ ∀ n block, .decoded n block ∉ (net.receivers 1).log := by
  have seen : (bfkw_line.start.run (BfkwProtocol.protocol Scalar Scalar Scalar 2) bfkw_line passed_on).map
      (fun net => (net.receivers 1).protocol.decoder.rank) = some 1 := by decide +kernel
  obtain ⟨net,ran,rank⟩ := Option.map_eq_some_iff.mp seen
  obtain ⟨_,decoded⟩ := (proposer_bound Scalar Scalar Bytes Bytes UInt64 Scalar Scalar Nat 2 5 [7] (scalar 3)
    (by decide)).2 bfkw_line (fun _ => ⟨_,rfl⟩) (by decide) passed_on net ran 1 (by decide)
  exact ⟨net,ran,rank,fun n block member => absurd (decoded n block member) (by decide)⟩

end

end Rlnc.Cuts
