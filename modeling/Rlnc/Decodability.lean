import Rlnc.Amplification
import Rlnc.Schedules

/-!
Which blocks can be decoded in the live network. What the receivers of a block can hold
lies in the span of the packets that the proposer sent, one to each of its targets
(`Confined`); conversely, when as many independent packets can be sent as there are chunks,
some schedule completes every receiver.
-/
namespace Rlnc.Decodability
open Rlnc.Panics Rlnc.Combination Rlnc.Wire Rlnc.Packing Rlnc.Coding Rlnc.Draws Rlnc.Blocks Rlnc.Integrity
open Rlnc.Protocols Rlnc.Actor Rlnc.Runs Rlnc.CodedRuns Rlnc.Network Rlnc.Amplification Rlnc.Schedules
set_option linter.unusedSectionVars false

/-- One chunk, and a packet for every receiver; or several chunks, and as many packets to
    as many receivers. -/
def Enough (N receivers degree : Nat) : Prop := N = 1 ∧ receivers ≤ degree ∨ 2 ≤ N ∧ N ≤ degree ∧ N ≤ receivers

instance (N receivers degree : Nat) : Decidable (Enough N receivers degree) :=
  inferInstanceAs (Decidable (N = 1 ∧ receivers ≤ degree ∨ 2 ≤ N ∧ N ≤ degree ∧ N ≤ receivers))

/-! ### What the proposer sends -/

section
variable {σ K : Type} [DecidableEq K] [SliceRandom] {P : Protocol σ}

/-- A proposer sends one packet to each of its targets. -/
theorem propose_block_targets [LawfulSliceRandom] {block_size block_num : Nat} {self next : NodeActor σ K} {sent : Proposed K}
    (ran : propose_block P block_size self block_num = .ok (next,sent)) : sent.packets.length ≤ self.peers.length := by
  obtain ⟨_,peers⟩ := between_blocks_frame P self block_num
  simp only [propose_block,bind_ok] at ran
  obtain ⟨⟨⟨protocol,proposal⟩,rest⟩,_,ran⟩ := ran
  simp only [NodeActor.select_peers,pure_eq,Except.ok.injEq,Prod.mk.injEq] at ran
  obtain ⟨_,rfl⟩ := ran
  rw [peers]
  have shuffled := (LawfulSliceRandom.perm rest.head (self.peers.filter fun p => decide ((none : Option K) ≠ some p))).length_eq
  have filtered := List.length_filter_le (fun p => decide ((none : Option K) ≠ some p)) self.peers
  simp only [List.length_zip,List.length_take,shuffled]
  omega

end

/-! ### The span of what the proposer sent -/

section
variable {F : Type} [Field F] [DecidableEq F] {N : Nat} {Context Proof Error : Type} [FixedCodec F]
  [LawfulScalar F] [IntegrityProof Proof] [Random F] [PackableField F] [FixedCodec UInt64] [BytesCodec] {σ K : Type} [DecidableEq K]
  [SliceRandom]

/-- Packets of block 0 have their coefficients in `V`. -/
def within (V : Submodule F (Fin N → F)) : Terms F N where
  announced _ _ := True
  genuine n c := n < 2 ^ 64 ∧ (n = 0 → c.coefficients ∈ V)
  decoded _ _ := True

variable {S : IntegrityScheme F N Context Proof Error} {derive : Nat → Context} {m : Nat} {V : Submodule F (Fin N → F)}

/-- Mixtures stay in the space of what is mixed. -/
theorem mix_within {ctx : Context} {packets : List (SignedPacket F N Proof)} {decoder : BlockDecoder F N} {proofs : List Proof}
    (stored : Stored S ctx m packets decoder proofs) (some_packet : packets ≠ [])
    (inside : ∀ p ∈ packets, p.chunk.coefficients ∈ V) {alphas : List F} (long : alphas.length = packets.length)
    {c : CodedChunk F N} (mixed : decoder.reencode_with alphas = .ok c) : c.coefficients ∈ V := by
  obtain ⟨c',mixed',_,_,coefficients⟩ := stored.reencode some_packet long
  obtain rfl : c = c' := Except.ok.inj (mixed.symm.trans mixed')
  rw [coefficients]
  refine Submodule.span_le.mpr ?_ (comb_mem_span _ _)
  intro x member
  obtain ⟨p,listed,rfl⟩ := List.mem_map.mp member
  exact inside p listed

theorem within_lawful : Lawful S derive m (within V) where
  mixes _ _ _ _ _ _ stored some_packet genuine long mixed :=
    ⟨(genuine _ (List.head_mem some_packet)).1,fun zero =>
      mix_within stored some_packet (fun p listed => (genuine p listed).2 zero) long mixed⟩
  decodes _ _ _ _ _ _ _ _ _ _ _ _ _ _ := trivial

/-- What each receiver can hold of block 0 lies in its space. -/
structure Confined (S : IntegrityScheme F N Context Proof Error) (view : σ → CodedState F N Context Proof)
    (derive : Nat → Context) (m : Nat) (V : K → Submodule F (Fin N → F)) (config : Config σ K) (net : Network σ K) : Prop where
  receivers : ∀ k, k ≠ config.source → CodedRun S view derive m (within (V k)) (net.receivers k)
  sent : ∀ e ∈ net.sent, ∀ k, k ≠ config.source → e.Reaches k →
    Arrives (Admissible S derive m (within (V k))) e.channel e.msg
  held : ∀ k, Held (fun s => Sound (view s).decoder) (fun s _ => min (view s).decoder.rank (N - 1)) (N - 1)
    (config.mesh_degree k) (net.receivers k)
  proposer : (view net.proposer.protocol).m = m
  start : net.blocks = [] → net.proposer = config.start.proposer
  count : net.blocks.length ≤ config.num_blocks config.source

variable {view : σ → CodedState F N Context Proof} {P : Protocol σ} {W : K → Submodule F (Fin N → F)} {config : Config σ K}
  {net : Network σ K}

/-- With one chunk nothing is forwarded. -/
theorem nothing_forwarded {degree : Nat} {node : Receiver σ K}
    (held : Held (fun s => Sound (view s).decoder) (fun s _ => min (view s).decoder.rank (N - 1)) (N - 1) degree node)
    (coded : Coded P S view) (one : N = 1) {n : Nat} {batch : List (K × Bytes)} (listed : .forwarded n batch ∈ node.log) :
    batch = [] := by
  have bounded : Bounded (N - 1) degree node.log := by
    rw [Held] at held
    split at held
    · exact held
    · exact held.bounded (coded_budgeted K coded)
  cases batch with
  | nil => rfl
  | cons entry batch =>
    have none_sent := bounded.sent (number entry.2)
    have counted : sends (number entry.2) (.forwarded n (entry :: batch) : Event σ K) ≤ data_sent (number entry.2) node.log :=
      List.single_le_sum (fun _ _ => Nat.zero_le _) _ (List.mem_map_of_mem listed)
    simp [one] at none_sent
    simp [none_sent,sends] at counted

theorem Confined.deliver (coded : Coded P S view) (positive : 0 < m) (spreads : N = 1 ∨ ∀ j k, W j = W k)
    (confined : Confined S view derive m W config net) {k : K} (receives : k ≠ config.source) {e : Envelope K}
    (flying : e ∈ net.sent) (reaches : e.Reaches k) : Confined S view derive m W config (net.deliver P config k e) := by
  have run : CodedRun S view derive m (within (W k))
      ((net.receivers k).receive P (config.num_blocks k) e.sender e.channel e.msg) :=
    receive_run (coded_keeps coded within_lawful positive) (config.num_blocks k) e.sender (confined.receivers k receives)
      (confined.sent e flying k receives reaches)
  have held := receive_held (coded_budgeted K coded) (config.num_blocks k) (confined.held k) e.sender e.channel e.msg
  refine ⟨fun j node => ?_,fun e' member j node reaches' => ?_,fun j => ?_,confined.proposer,confined.start,confined.count⟩
  · by_cases same : j = k
    · subst same
      rw [deliver_here]
      exact run
    · rw [deliver_elsewhere net e same]
      exact confined.receivers j node
  · rcases List.mem_append.mp member with old | new
    · exact confined.sent e' old j node reaches'
    · obtain ⟨event,listed,emitted⟩ := List.mem_flatMap.mp new
      have known := run.logged event (List.mem_of_mem_drop listed)
      intro _
      match event,known,emitted with
      | .announced msg,_,emitted =>
        obtain rfl := List.mem_singleton.mp emitted
        exact fun _ => trivial
      | .forwarded n batch,sends,emitted =>
        obtain ⟨entry,inside,rfl⟩ := List.mem_map.mp emitted
        rcases spreads with one | same
        · rw [nothing_forwarded held coded one (List.mem_of_mem_drop listed)] at inside
          cases inside
        · obtain ⟨packet,message_same,wide,small,genuine⟩ := sends entry inside
          obtain ⟨first,second⟩ := message_number small packet.serialize
          simp only [message_same,first,second]
          intro q read _
          have chunk_same := (SignedPacket.deserialize_written packet [] (by rw [List.append_nil,wide]; exact read)).1
          rw [chunk_same]
          exact ⟨small,by rw [same j k]; exact genuine⟩
  · by_cases same : j = k
    · subst same
      rw [deliver_here]
      exact held
    · rw [deliver_elsewhere net e same]
      exact confined.held j

/-- The first proposal sends each target what lies in its space, as far as it can be read. -/
def FirstWithin (P : Protocol σ) (m : Nat) (W : K → Submodule F (Fin N → F)) (Proof : Type) [IntegrityProof Proof]
    (config : Config σ K) : Prop :=
  ∀ node proposed, propose_block P config.block_size config.start.proposer 0 = .ok (node,proposed) →
    ∀ entry ∈ proposed.packets, ∀ p : SignedPacket F N Proof,
      SignedPacket.deserialize (entry.2.drop 8) m = .ok (.ok p) → p.chunk.coefficients ∈ W entry.1

theorem Confined.propose (coded : Coded P S view) (proposes : Proposes P view)
    (limited : config.num_blocks config.source < 2 ^ 64) (first : FirstWithin P m W Proof config)
    (confined : Confined S view derive m W config net) {next : Network σ K} (ran : net.propose P config = some next) :
    Confined S view derive m W config next := by
  obtain ⟨proposer,proposed,more,made,rfl⟩ := Network.propose_cases ran
  obtain ⟨proposal,rest,payloads,block,announced,packets⟩ := propose_block_ok made
  obtain ⟨wide,_⟩ := proposes.propose _ _ _ _ _ _ _ payloads
  have width : (view (between_blocks P net.proposer net.blocks.length).protocol).m = m := by
    rcases between_blocks_protocol P net.proposer net.blocks.length with same | reset
    · rw [same]; exact confined.proposer
    · rw [reset]; exact (coded.reset_fixed _).2.trans confined.proposer
  have number : net.blocks.length < 2 ^ 64 := by omega
  refine ⟨confined.receivers,fun e member k node reaches => ?_,confined.held,wide.trans width,by simp,?_⟩
  · rcases List.mem_append.mp member with old | new
    · exact confined.sent e old k node reaches
    · rcases List.mem_cons.mp new with rfl | packet
      · exact fun _ _ => trivial
      · obtain ⟨entry,listed,rfl⟩ := List.mem_map.mp packet
        have here : entry.1 = k := by simpa using reaches.2
        intro _ q read _
        obtain ⟨payload,_,same⟩ := packets entry listed
        have numbered : of_be (entry.2.take 8) = net.blocks.length := by rw [same]; exact (message_number number payload).1
        refine ⟨by rw [numbered]; exact number,fun zero => ?_⟩
        have empty : net.blocks = [] := List.length_eq_zero_iff.mp (numbered.symm.trans zero)
        rw [empty,confined.start empty] at made
        rw [← here]
        exact first _ _ made entry listed q read
  · rw [List.length_append,List.length_singleton]
    omega

/-- Everything is confined in every run. -/
theorem run_confined (coded : Coded P S view) (proposes : Proposes P view) (positive : 0 < m)
    (ready : Ready view derive m config) (limited : config.num_blocks config.source < 2 ^ 64)
    (first : FirstWithin P m W Proof config) (spreads : N = 1 ∨ ∀ j k, W j = W k) {actions : List (Action K)}
    (ran : config.start.run P config actions = some net) : Confined S view derive m W config net := by
  refine Network.run_keeps P config (fun net action next confined stepped => ?_) ?_ ran
  · cases action with
    | propose => exact confined.propose coded proposes limited first stepped
    | deliver k i =>
      obtain ⟨_,found,receives,reaches,rfl⟩ := Network.deliver_cases stepped
      exact confined.deliver coded positive spreads receives (List.mem_of_getElem? found) reaches
  · refine ⟨fun k _ => run_new _ rfl rfl (ready k),by simp [Config.start],fun k => ?_,(ready config.source).fixed.1,
      fun _ => rfl,by simp [Config.start]⟩
    refine new_held _ _ _ _ ?_
    rw [(ready k).decoder]
    exact BlockDecoder.sound_new

/-- A receiver that holds all of block 0 has a space that is everything. -/
theorem Confined.reached (coded : Coded P S view) (positive : 0 < m) (confined : Confined S view derive m W config net)
    {k : K} (receives : k ≠ config.source) (reached : Reached P 0 (net.receivers k)) : W k = ⊤ := by
  obtain ⟨s,t,data,listed,ran,complete⟩ := reached
  obtain ⟨busy,admissible⟩ := (confined.receivers k receives).logged _ listed
  obtain ⟨packets,stored,genuine⟩ := busy.stored
  have seen := coded.data s 0 data
  rw [ran] at seen
  rw [← busy.fixed.1] at stored positive
  obtain ⟨_,⟨_,refused⟩ | ⟨_,packet,read,⟨good,_⟩,grown⟩⟩ := receive_stored busy.ctx positive stored seen.symm
  · exact absurd rfl refused
  · rw [coded.is_complete,BlockDecoder.complete_iff_spans grown.sound,grown.chunks] at complete
    rw [eq_top_iff,← complete,coefficient_span,Submodule.span_le]
    intro x member
    simp only [List.map_append,List.map_map] at member
    rcases List.mem_append.mp member with old | new
    · obtain ⟨p,inside,rfl⟩ := List.mem_map.mp old
      exact (genuine p inside).2 rfl
    · rw [busy.fixed.1] at read
      rw [List.map_singleton] at new
      rw [List.mem_singleton.mp new]
      exact (admissible packet read good).2 rfl

/-- The first proposal is the one that the proposer makes at its start. -/
structure Opened (P : Protocol σ) (config : Config σ K) (net : Network σ K) : Prop where
  start : net.blocks = [] → net.proposer = config.start.proposer
  first : ∀ block, net.blocks[0]? = some block → ∃ node proposed,
    propose_block P config.block_size config.start.proposer 0 = .ok (node,proposed) ∧ proposed.block = block

theorem run_opened {actions : List (Action K)} (ran : config.start.run P config actions = some net) :
    Opened P config net := by
  refine Network.run_keeps P config (fun net action next opened stepped => ?_) ⟨fun _ => rfl,by simp [Config.start]⟩ ran
  cases action with
  | deliver k i =>
    obtain ⟨_,_,_,_,rfl⟩ := Network.deliver_cases stepped
    exact ⟨opened.start,opened.first⟩
  | propose =>
    obtain ⟨node,proposed,_,made,rfl⟩ := Network.propose_cases stepped
    refine ⟨by simp,fun block found => ?_⟩
    by_cases empty : net.blocks = []
    · rw [empty,opened.start empty] at made
      refine ⟨node,proposed,made,?_⟩
      simpa [empty] using found
    · obtain ⟨first,rest,same⟩ := List.exists_cons_of_ne_nil empty
      refine opened.first block ?_
      rw [same] at found ⊢
      exact found

/-! ### What decoding needs -/

omit [DecidableEq F] [FixedCodec F] [LawfulScalar F] [Random F] [PackableField F] [FixedCodec UInt64] [BytesCodec] in
theorem spanning_length {xs : List (Fin N → F)} (spans : Submodule.span F {x | x ∈ xs} = ⊤) : N ≤ xs.length := by
  classical
  have members : {x | x ∈ xs} = (xs.toFinset : Set (Fin N → F)) := by ext x; simp
  rw [members] at spans
  have few := finrank_span_finset_le_card (R := F) xs.toFinset
  rw [Set.finrank,spans,finrank_top,Module.finrank_fin_fun] at few
  exact few.trans (List.toFinset_card_le xs)

/-- The coefficients of a packet, if it is read. -/
def read_coefficients (Proof : Type) [IntegrityProof Proof] (N m : Nat) (data : Bytes) : Option (Fin N → F) :=
  match (SignedPacket.deserialize data m : Rust (Except String (SignedPacket F N Proof))) with
  | .ok (.ok p) => some p.chunk.coefficients
  | _ => none

variable [LawfulPackable F] [LawfulSliceRandom] {degree : Nat} {block : Block}

/-- A block is only decoded when the proposer sends packets that can be read, and enough of them. -/
theorem decodable_needs (coded : Coded P S view) (proposes : Proposes P view) (some_chunk : 0 < N)
    (ready : Ready view derive m config) (meshed : Meshed config degree) (some_receiver : 1 ≤ (config.peers config.source).length)
    (decodable : Decodable P config block) :
    ∃ rng t proposal rest, P.propose (config.protocol config.source) block degree rng = .ok ((t,proposal),rest) ∧
      (∃ bytes ∈ proposal.packets, ∃ p : SignedPacket F N Proof, SignedPacket.deserialize bytes m = .ok (.ok p)) ∧
      Enough N (config.peers config.source).length degree := by
  obtain ⟨rng,actions,net,ran,found,reached⟩ := decodable
  obtain ⟨node,proposed,made,rfl⟩ := (run_opened ran).first block found
  obtain ⟨proposal,rest,payloads,_,_,packets⟩ := propose_block_ok made
  obtain ⟨_,chunks,byte_len,split,_⟩ := proposes.propose _ _ _ _ _ _ _ payloads
  have few := propose_block_few made
  have few' := propose_block_targets made
  have width : (view (config.protocol config.source)).m = m := (ready config.source).fixed.1
  have positive : 0 < m := width ▸ Nat.pos_of_mul_pos_left (Block.as_chunks_ok split).1.slots
  have spanned : ∀ W : K → Submodule F (Fin N → F), (N = 1 ∨ ∀ j k, W j = W k) →
      (∀ entry ∈ proposed.packets, ∀ p : SignedPacket F N Proof, SignedPacket.deserialize (entry.2.drop 8) m = .ok (.ok p) →
        p.chunk.coefficients ∈ W entry.1) → ∀ k, k ≠ config.source → W k = ⊤ := by
    intro W spreads inside k receives
    have confined := run_confined (W := W) coded proposes positive (show Ready view derive m (drawing config rng) from ready)
      (meshed.limited config.source) (by
        intro node' proposed' made'
        obtain ⟨_,rfl⟩ := Prod.mk.inj (Except.ok.inj (made.symm.trans made'))
        exact inside) spreads ran
    exact confined.reached coded positive receives (reached k receives)
  have apart : (⊥ : Submodule F (Fin N → F)) ≠ ⊤ := by
    have : Nonempty (Fin N) := ⟨⟨0,some_chunk⟩⟩
    exact bot_ne_top
  obtain ⟨k,listed⟩ := List.exists_mem_of_length_pos some_receiver
  have receives : k ≠ config.source := (meshed.peers config.source k).mp listed
  have degrees : config.start.proposer.mesh_degree = degree := meshed.degree config.source
  refine ⟨(generate_random_block config.block_size 0 (rng config.source)).2,node.protocol,proposal,rest,?_,?_,?_⟩
  · rw [← degrees]
    exact payloads
  · -- if none could be read, the receivers would hold nothing
    by_contra unread
    refine apart (spanned (fun _ => ⊥) (.inr fun _ _ => rfl) ?_ k receives)
    intro entry member p read
    obtain ⟨payload,inside,same⟩ := packets entry member
    rw [same,(message_number (n := 0) (by decide) payload).2] at read
    exact absurd ⟨payload,inside,p,read⟩ unread
  · by_cases one : N = 1
    · -- every receiver is a target
      classical
      refine .inl ⟨one,?_⟩
      have targets : ∀ j ∈ config.peers config.source, j ∈ proposed.packets.map Prod.fst := by
        intro j peer
        by_contra untargeted
        have all := spanned (fun j => if j ∈ proposed.packets.map Prod.fst then ⊤ else ⊥) (.inl one) (by
          intro entry member p _
          simp only [if_pos (List.mem_map_of_mem (f := Prod.fst) member)]
          trivial) j ((meshed.peers config.source j).mp peer)
        simp only [if_neg untargeted] at all
        exact apart all
      have count := (List.subperm_of_subset (meshed.nodup config.source) targets).length_le
      rw [List.length_map] at count
      exact count.trans (few.trans degrees.le)
    · -- the packets span the space
      let read : List (Fin N → F) := proposed.packets.filterMap fun entry => read_coefficients Proof N m (entry.2.drop 8)
      have spans : Submodule.span F {x | x ∈ read} = ⊤ := by
        refine spanned (fun _ => Submodule.span F {x | x ∈ read}) (.inr fun _ _ => rfl) ?_ k receives
        intro entry member p deserialized
        refine Submodule.subset_span (List.mem_filterMap.mpr ⟨entry,member,?_⟩)
        simp only [read_coefficients,deserialized]
      have enough := (spanning_length spans).trans (List.length_filterMap_le _ _)
      have targets : proposed.packets.length ≤ (config.peers config.source).length := few'
      exact .inr ⟨by omega,enough.trans (few.trans degrees.le),enough.trans targets⟩

/-! ### Enough packets -/

variable {W' : Type} [AddCommGroup W'] [Module F W'] {image : (Fin N → F) →ₗ[F] W'} {chunks : List (Chunk F)}
  {Genuine : SignedPacket F N Proof → Prop} [LawfulRandom F]

/-- With enough packets a block is decoded by every receiver in some schedule. -/
theorem decodable_of_enough (roomy : Relaying.Roomy F) (some_image : image ≠ 0) (some_chunk : 0 < N) (coded : Coded P S view)
    (carried : Carried S (derive 0) m chunks Genuine image) (ready : Ready view derive m config) (meshed : Meshed config degree)
    (offers : Offers P Genuine (config.protocol config.source) block degree)
    (generated : ∃ rng, (generate_random_block config.block_size 0 rng).1 = block)
    (enough : Enough N (config.peers config.source).length degree) : Decodable P config block := by
  obtain ⟨family,nonzero,seen,spans⟩ := Relaying.nonzero_family roomy some_image
  have member : ∀ {k}, k ∈ config.peers config.source ↔ k ≠ config.source := meshed.peers config.source _
  rcases enough with ⟨one,few⟩ | ⟨two,wide,many⟩
  · -- every receiver gets a packet of the proposer
    obtain ⟨sends,named⟩ : ∃ sends, sends = (config.peers config.source).map fun k => (k,family ⟨0,some_chunk⟩) := ⟨_,rfl⟩
    have realizable : Realizable P S view (derive 0) m Genuine degree config block (opening config.source sends) := by
      refine opening_realizable some_chunk coded ready meshed offers generated (by simpa [named] using few) ?_ ?_ ?_
      · simpa [named,Function.comp_def] using meshed.nodup config.source
      · simpa [named] using fun k listed => member.mp listed
      · simpa [named] using fun _ _ => nonzero ⟨0,some_chunk⟩
    have sent : ∀ k ∈ config.peers config.source, ∀ j, (opening config.source sends).flying config.source k (family j) := by
      intro k listed j
      have same : j = ⟨0,some_chunk⟩ := Fin.ext (by omega)
      rw [same,named]
      exact ⟨rfl,List.mem_map_of_mem listed⟩
    obtain ⟨t,reaches,complete,_⟩ : ∃ t, (rules degree config image).Reaches (opening config.source sends) t ∧ _ ∧ _ :=
      Relaying.Rules.fill spans Function.injective_id (meshed.nodup config.source) (fun k listed => member.mp listed) seen
        fun k listed j => .inr ⟨config.source,sent k listed j⟩
    exact (realizable.reaches coded carried meshed reaches).decodable fun k receives => complete k (member.mpr receives)
  · obtain ⟨group,rest,split⟩ := Relaying.Rules.split_first many
    have nodup := meshed.nodup config.source
    rw [split] at nodup
    obtain ⟨apart,nodup,disjoint⟩ := List.nodup_append'.mp nodup
    have listed : ∀ i, group i ∈ config.peers config.source := fun i => by simp [split]
    have others : ∀ k ∈ rest, k ∈ config.peers config.source := fun k inside => by simp [split,inside]
    obtain ⟨sends,named⟩ : ∃ sends, sends = List.ofFn fun i => (group i,family i) := ⟨_,rfl⟩
    have realizable : Realizable P S view (derive 0) m Genuine degree config block (opening config.source sends) := by
      refine opening_realizable some_chunk coded ready meshed offers generated (by simpa [named] using wide) ?_ ?_ ?_
      · simpa [named,List.map_ofFn,Function.comp_def] using apart
      · simpa [named,List.forall_mem_ofFn_iff] using fun i => member.mp (listed i)
      · simpa [named,List.forall_mem_ofFn_iff] using nonzero
    have start : Relaying.Rules.Opening (rules degree config image) (opening config.source sends) family group rest :=
      { apart := List.nodup_ofFn.mp apart
        nodup := nodup
        disjoint := fun i inside => disjoint (List.mem_ofFn.mpr ⟨i,rfl⟩) inside
        group_empty := fun i => ⟨rfl,member.mp (listed i)⟩
        rest_empty := fun k inside => ⟨rfl,member.mp (others k inside)⟩
        arrives := fun i => ⟨config.source,fun j same => member.mp (listed j) same.symm,
          fun inside => member.mp (others _ inside) rfl,rfl,by rw [named]; exact List.mem_ofFn.mpr ⟨i,rfl⟩⟩ }
    obtain ⟨t,reaches,complete,complete'⟩ := start.served roomy (Module.finrank_fin_fun F) two wide spans seen
    refine (realizable.reaches coded carried meshed reaches).decodable fun k receives => ?_
    have inside := member.mpr receives
    rw [split] at inside
    rcases List.mem_append.mp inside with first | later
    · obtain ⟨i,rfl⟩ := List.mem_ofFn.mp first
      exact complete i
    · exact complete' k later

end

end Rlnc.Decodability
