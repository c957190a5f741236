import Rlnc.Delivery

/-!
What happens to the packets that honest nodes make. Every packet in flight is one that the
proposer signed or a mixture of such packets, so it verifies for its block, and a receiver that
hands it to its protocol takes it or finds it redundant, unless it cannot be read from its
bytes (`pedersen_never_refused`, `bfkw_never_refused`).
-/
namespace Rlnc.Acceptance
open Rlnc.Panics Rlnc.Combination Rlnc.Wire Rlnc.Packing Rlnc.Coding Rlnc.Draws Rlnc.Blocks Rlnc.Groups Rlnc.Integrity
open Rlnc.Protocols Rlnc.Packets Rlnc.Strategies Rlnc.Actor Rlnc.Runs Rlnc.Network Rlnc.Delivery
open Rlnc.CodedRuns (Idle)
set_option linter.unusedSectionVars false

/-! ### Genuine packets in a receiver -/

section
variable {F : Type} [Field F] [DecidableEq F] {N : Nat} {Context Proof Error : Type} [FixedCodec F] [IntegrityProof Proof]
  [Random F] [PackableField F] [FixedCodec UInt64] [BytesCodec] {σ K : Type}

/-- Genuine packets of a block verify in its context and mix to genuine packets; `Readable` ones are
    read from their bytes as they are, the others not at all. -/
structure Authentic (S : IntegrityScheme F N Context Proof Error) (derive : Nat → Context) (m : Nat)
    (Readable : SignedPacket F N Proof → Prop) (Genuine : Nat → SignedPacket F N Proof → Prop) : Prop where
  verifies : ∀ n (p : SignedPacket F N Proof), Genuine n p → Verifies S (derive n) p
  width : ∀ n (p : SignedPacket F N Proof), Genuine n p → p.chunk.w.v.length = m
  mixes : ∀ n packets decoder proofs (alphas : List F) chunk proof, Stored S (derive n) m packets decoder proofs →
    packets ≠ [] → (∀ p ∈ packets, Genuine n p) → alphas.length = packets.length →
    decoder.reencode_with alphas = .ok chunk → S.combine proofs alphas = .ok proof → Genuine n ⟨chunk,proof⟩
  readable : ∀ n (p : SignedPacket F N Proof), Genuine n p → Readable p → SignedPacket.deserialize p.serialize m = .ok (.ok p)
  parsed : ∀ n (p q : SignedPacket F N Proof), Genuine n p → SignedPacket.deserialize p.serialize m = .ok (.ok q) → Readable p

section
variable (P : Protocol σ) (S : IntegrityScheme F N Context Proof Error) (view : σ → CodedState F N Context Proof)
  (derive : Nat → Context) (m : Nat) (Genuine : Nat → SignedPacket F N Proof → Prop)

/-- A protocol that takes the packets of block `n`, and holds genuine ones only. -/
structure Clean (n : Nat) (s : σ) : Prop where
  fixed : CodedRuns.Fixed view derive m s
  ctx : (view s).ctx = some (derive n)
  stored : ∃ packets, Stored S (derive n) m packets (view s).decoder (view s).proofs ∧ ∀ p ∈ packets, Genuine n p

/-- The bytes of a genuine packet of block `n`. -/
def Carries (n : Nat) (data : Bytes) : Prop := ∃ p : SignedPacket F N Proof, data = p.serialize ∧ Genuine n p

/-- A data message is that of a genuine packet; an announcement may be any. -/
def Original : Item → Prop
  | (.Announce,_,_) => True
  | (.Data,n,data) => Carries Genuine n data

/-- A node hands genuine packets to a clean protocol, and forwards genuine packets. -/
def Witnessed : Event σ K → Prop
  | .ingest s .Data n data => Clean S view derive m Genuine n s ∧ Carries Genuine n data
  | .forwarded n batch => ∀ entry ∈ batch, ∃ data, entry.2 = message n data ∧ Carries Genuine n data
  | _ => True

end

variable {P : Protocol σ} {S : IntegrityScheme F N Context Proof Error} {view : σ → CodedState F N Context Proof}
  {derive : Nat → Context} {m : Nat} {Readable : SignedPacket F N Proof → Prop}
  {Genuine : Nat → SignedPacket F N Proof → Prop}

theorem Authentic.positive (authentic : Authentic S derive m Readable Genuine) {n : Nat} {p : SignedPacket F N Proof}
    (genuine : Genuine n p) : 0 < m := by
  rw [← authentic.width n p genuine]
  exact List.length_pos_of_ne_nil p.chunk.w.nonempty

/-- A genuine packet is refused only when it cannot be read. -/
theorem Clean.ingest (coded : Coded P S view) (authentic : Authentic S derive m Readable Genuine) {n : Nat} {s : σ}
    (clean : Clean S view derive m Genuine n s) {p : SignedPacket F N Proof} (genuine : Genuine n p) :
    (¬Readable p ∧ ∃ t e, P.ingest s .Data n p.serialize = .ok (t,.error e) ∧ view t = view s) ∨
    (Readable p ∧ ∃ t useful, P.ingest s .Data n p.serialize = .ok (t,.ok useful) ∧ Clean S view derive m Genuine n t ∧
      (useful = true → (view t).decoder.coded_chunks ≠ [])) := by
  have ran := coded.data s n p.serialize
  obtain ⟨fixed,known,packets,stored,good⟩ := clean
  simp only [CodedState.receive,known,fixed.1] at ran
  by_cases readable : Readable p
  · refine .inr ⟨readable,?_⟩
    simp only [authentic.readable n p genuine readable,ok_bind] at ran
    rcases coded_receive_spec stored p (authentic.width n p genuine) (authentic.verifies n p genuine) with
      ⟨e,refused,_⟩ | ⟨_,_,same⟩ | ⟨_,_,_,decoder',proofs',same,grown⟩
    · cases refused
    · rw [same] at ran
      obtain ⟨⟨t,r⟩,answered,seen⟩ := map_ok ran
      obtain ⟨next,rfl⟩ := Prod.mk.inj seen
      exact ⟨t,false,answered,⟨by rw [CodedRuns.Fixed,next]; exact ⟨rfl,fixed.2⟩,by rw [next],packets,by rw [next]; exact stored,good⟩,by simp⟩
    · rw [same] at ran
      obtain ⟨⟨t,r⟩,answered,seen⟩ := map_ok ran
      obtain ⟨next,rfl⟩ := Prod.mk.inj seen
      refine ⟨t,true,answered,⟨by rw [CodedRuns.Fixed,next]; exact ⟨rfl,fixed.2⟩,by rw [next],packets ++ [p],by rw [next]; exact grown,?_⟩,?_⟩
      · intro q member
        rcases List.mem_append.mp member with old | new
        · exact good q old
        · rw [List.mem_singleton.mp new]; exact genuine
      · rw [next]
        simp [grown.chunks]
  · refine .inl ⟨readable,?_⟩
    obtain ⟨read,runs,_⟩ : ∃ r, (SignedPacket.deserialize p.serialize m : Rust (Except String (SignedPacket F N Proof))) =
        .ok r ∧ ∀ packet, r = .ok packet → packet.chunk.w.v.length = m :=
      SignedPacket.deserialize_runs p.serialize (authentic.positive genuine)
    cases read with
    | ok q => exact absurd (authentic.parsed n p q genuine runs) readable
    | error e =>
      simp only [runs,ok_bind] at ran
      obtain ⟨⟨t,r⟩,answered,seen⟩ := map_ok ran
      obtain ⟨next,rfl⟩ := Prod.mk.inj seen
      exact ⟨t,e,answered,by rw [next]⟩

variable [DecidableEq K] [SliceRandom]

/-- Any announcement may be handed to a protocol that waits. -/
theorem announce_kept (coded : Coded P S view) {n : Nat} {s : σ} {data : Bytes} (idle : Idle view derive m n s) :
    AnnounceKept P (Idle view derive m) (Clean S view derive m Genuine) (Witnessed (K := K) S view derive m Genuine)
      (fun _ => True) n s data := by
  have ran := coded.announce s n data
  refine ⟨trivial,fun _ _ => trivial,?_,?_⟩
  · intro t accepted
    rw [accepted] at ran
    have same := Except.ok.inj ran
    unfold CodedState.announce at same
    by_cases short : data.length < 8
    · rw [if_pos short] at same
      cases (Prod.mk.inj same).2
    · rw [if_neg short] at same
      obtain ⟨next,_⟩ := Prod.mk.inj same
      refine ⟨⟨?_,?_,[],?_,by simp⟩,trivial⟩
      · rw [CodedRuns.Fixed,next]; exact idle.fixed
      · rw [next,← idle.fixed.2]
      · rw [next]
        simp only [idle.decoder,idle.proofs]
        exact Stored.new
  · intro t r answered refused
    rw [answered] at ran
    have same := Except.ok.inj ran
    unfold CodedState.announce at same
    split at same
    · obtain ⟨next,_⟩ := Prod.mk.inj same
      exact ⟨by rw [CodedRuns.Fixed,next]; exact idle.fixed,by rw [next]; exact idle.decoder,by rw [next]; exact idle.proofs⟩
    · exact absurd (Prod.mk.inj same).2 refused

/-- A clean protocol forwards genuine packets. -/
theorem Clean.recode (coded : Coded P S view) (authentic : Authentic S derive m Readable Genuine) {n : Nat} {t : σ}
    (clean : Clean S view derive m Genuine n t) (some_packet : (view t).decoder.coded_chunks ≠ []) {count : Nat}
    {rng rest : Rng} {sent : List Bytes} (ran : P.recode t count rng = .ok (sent,rest)) :
    ∀ bytes ∈ sent, Carries Genuine n bytes := by
  obtain ⟨_,_,packets,stored,good⟩ := clean
  rw [coded.recode,CodedState.recode,bind_ok] at ran
  obtain ⟨⟨forwarded,rest'⟩,collected,ran⟩ := ran
  obtain ⟨rfl,rfl⟩ := ok_pair ran
  have nonempty : packets ≠ [] := by
    rintro rfl
    exact some_packet stored.chunks
  intro bytes member
  obtain ⟨p,listed,rfl⟩ := List.mem_map.mp member
  obtain ⟨before,mixed,combined⟩ := coded_forward_each S collected p listed
  have long : (random_coefficients (F := F) (view t).decoder.rank before).1.length = packets.length := by
    rw [random_coefficients_length,stored.rank]
  exact ⟨p,rfl,authentic.mixes n packets _ _ _ p.chunk p.proof stored nonempty good long mixed combined⟩

/-- Genuine packets leave a protocol clean, and what it forwards is genuine. -/
theorem data_kept (coded : Coded P S view) (authentic : Authentic S derive m Readable Genuine) {n : Nat} {s : σ}
    {data : Bytes} (clean : Clean S view derive m Genuine n s) (carries : Carries Genuine n data) :
    DataKept P (Idle view derive m) (Clean S view derive m Genuine) (Witnessed (K := K) S view derive m Genuine)
      (fun _ => True) n s data := by
  obtain ⟨p,rfl,genuine⟩ := id carries
  refine ⟨⟨clean,carries⟩,fun _ _ => trivial,?_,?_⟩
  · intro t accepted
    rcases clean.ingest coded authentic genuine with ⟨_,t',e,answered,_⟩ | ⟨_,t',useful,answered,clean',some_packet⟩
    · rw [answered] at accepted
      cases (Prod.mk.inj (Except.ok.inj accepted)).2
    · rw [answered] at accepted
      obtain ⟨rfl,same⟩ := Prod.mk.inj (Except.ok.inj accepted)
      have nonempty := some_packet (Except.ok.inj same)
      refine ⟨fun _ _ _ _ => trivial,?_,fun _ => clean',fun _ _ _ => trivial,fun _ _ _ _ => trivial,?_⟩
      · intro count rng packets rest targets ran entry member
        obtain ⟨bytes,listed,same⟩ := List.mem_map.mp (List.of_mem_zip member).2
        exact ⟨bytes,same.symm,clean'.recode coded authentic nonempty ran bytes listed⟩
      · intro block u _ ran
        obtain rfl := coded.decode_same ran
        obtain ⟨packets,stored,_⟩ := clean'.stored
        obtain ⟨derives,width⟩ := coded.reset_fixed u
        obtain ⟨decoder,proofs,_⟩ := coded.reset_block u
        split
        · exact ⟨⟨width.trans clean'.fixed.1,derives.trans clean'.fixed.2⟩,decoder.trans (BlockDecoder.sound_reset stored.sound),
            proofs⟩
        · trivial
  · intro t r answered _
    rcases clean.ingest coded authentic genuine with ⟨_,t',e,refused,same⟩ | ⟨_,t',useful,taken,clean',_⟩
    · rw [answered] at refused
      obtain ⟨rfl,_⟩ := Prod.mk.inj (Except.ok.inj refused)
      exact ⟨by rw [CodedRuns.Fixed,same]; exact clean.fixed,by rw [same]; exact clean.ctx,by rw [same]; exact clean.stored⟩
    · rw [answered] at taken
      obtain ⟨rfl,_⟩ := Prod.mk.inj (Except.ok.inj taken)
      exact clean'

/-- A coded protocol to which only genuine packets come stays clean. -/
theorem clean_keeps (coded : Coded P S view) (authentic : Authentic S derive m Readable Genuine) :
    Keeps P (Idle view derive m) (Clean S view derive m Genuine) (Original Genuine)
      (Witnessed (K := K) S view derive m Genuine) (fun _ => True) :=
  ⟨fun _ _ _ idle _ => announce_kept coded idle,fun _ _ _ clean carries => data_kept coded authentic clean carries⟩

/-- A receiver to which only genuine packets came. -/
def CleanRun (S : IntegrityScheme F N Context Proof Error) (view : σ → CodedState F N Context Proof)
    (derive : Nat → Context) (m : Nat) (Genuine : Nat → SignedPacket F N Proof → Prop) (node : Receiver σ K) : Prop :=
  Run (Idle view derive m) (Clean S view derive m Genuine) (Original Genuine) (Witnessed S view derive m Genuine)
    (fun _ => True) node

theorem CleanRun.witnessed {node : Receiver σ K} (run : CleanRun S view derive m Genuine node) :
    ∀ event ∈ node.log, Witnessed S view derive m Genuine event := by
  rcases run with ⟨_,steady⟩ | ⟨_,stopped⟩
  · exact steady.logged
  · exact stopped.logged

/-- What is genuine stays genuine. -/
theorem CleanRun.grows {Genuine' : Nat → SignedPacket F N Proof → Prop} (grows : ∀ n p, Genuine n p → Genuine' n p)
    {node : Receiver σ K} (run : CleanRun S view derive m Genuine node) : CleanRun S view derive m Genuine' node := by
  have carries : ∀ n data, Carries Genuine n data → Carries Genuine' n data :=
    fun n data ⟨p,same,genuine⟩ => ⟨p,same,grows n p genuine⟩
  have clean : ∀ n s, Clean S view derive m Genuine n s → Clean S view derive m Genuine' n s :=
    fun n s ⟨fixed,known,packets,stored,good⟩ => ⟨fixed,known,packets,stored,fun p member => grows n p (good p member)⟩
  refine Run.mono (fun _ _ idle => idle) clean ?_ ?_ (fun _ fault => fault) run
  · rintro ⟨channel,n,data⟩ original
    cases channel with
    | Announce => trivial
    | Data => exact carries n data original
  · intro event known
    match event,known with
    | .ingest s .Announce n data,_ => trivial
    | .ingest s .Data n data,⟨held,carried⟩ => exact ⟨clean n s held,carries n data carried⟩
    | .announced _,_ => trivial
    | .forwarded n batch,sends =>
      intro entry member
      obtain ⟨data,same,carried⟩ := sends entry member
      exact ⟨data,same,carries n data carried⟩
    | .decoded _ _,_ => trivial

end

/-! ### Genuine packets in a network -/

section
variable {F : Type} [Field F] [DecidableEq F] {N : Nat} {Context Proof Error : Type} [FixedCodec F] [IntegrityProof Proof]
  [Random F] [PackableField F] [LawfulPackable F] [FixedCodec UInt64] [BytesCodec] {σ K : Type} [DecidableEq K] [SliceRandom]

/-- A packet made from the chunks of the block that was proposed with this number. -/
def Issued (Of : Nat → List (Chunk F) → SignedPacket F N Proof → Prop) (m : Nat) (blocks : List Block) (n : Nat)
    (p : SignedPacket F N Proof) : Prop :=
  ∃ block chunks byte_len, blocks[n]? = some block ∧ block.as_chunks N m = .ok (chunks,byte_len) ∧ Of n chunks p

/-- The packets made from any `N` chunks of `m` elements. -/
structure Issuing (S : IntegrityScheme F N Context Proof Error) (derive : Nat → Context) (m : Nat)
    (Readable : SignedPacket F N Proof → Prop) (Of : Nat → List (Chunk F) → SignedPacket F N Proof → Prop) : Prop where
  hereditary : ∀ n chunks, chunks.length = N → (∀ v ∈ chunks, v.v.length = m) → Hereditary S (derive n) m chunks (Of n chunks)
  readable : ∀ n chunks (p : SignedPacket F N Proof), chunks.length = N → Of n chunks p → Readable p →
    SignedPacket.deserialize p.serialize p.chunk.w.v.length = .ok (.ok p)
  parsed : ∀ n chunks (p q : SignedPacket F N Proof), chunks.length = N → Of n chunks p →
    SignedPacket.deserialize p.serialize p.chunk.w.v.length = .ok (.ok q) → Readable p

/-- The protocol of a proposer sends packets of the block it proposes. -/
structure Authors (P : Protocol σ) (Of : Nat → List (Chunk F) → SignedPacket F N Proof → Prop) (m : Nat)
    (Signing : σ → Prop) : Prop where
  propose : ∀ s block count rng t proposal rest, Signing s → P.propose s block count rng = .ok ((t,proposal),rest) →
    Signing t ∧ ∃ chunks byte_len, block.as_chunks N m = .ok (chunks,byte_len) ∧
      ∀ bytes ∈ proposal.packets, Carries (fun n => Of n chunks) block.number.toNat bytes
  reset : ∀ s, Signing s → Signing (P.reset s)

variable {P : Protocol σ} {S : IntegrityScheme F N Context Proof Error} {view : σ → CodedState F N Context Proof}
  {derive : Nat → Context} {m : Nat} {Readable : SignedPacket F N Proof → Prop}
  {Of : Nat → List (Chunk F) → SignedPacket F N Proof → Prop} {Signing : σ → Prop} {config : Config σ K}

/-- The packets issued for a block are those made from its chunks. -/
theorem Issued.of {blocks : List Block} {n : Nat} {p : SignedPacket F N Proof} (issued : Issued Of m blocks n p) :
    ∃ chunks : List (Chunk F), chunks.length = N ∧ (∀ v ∈ chunks, v.v.length = m) ∧
      ∀ q, Issued Of m blocks n q ↔ Of n chunks q := by
  obtain ⟨block,chunks,byte_len,known,split,_⟩ := issued
  obtain ⟨_,_,parts⟩ := Block.as_chunks_ok split
  refine ⟨chunks,parts.count,parts.sizes,fun q => ⟨?_,fun made => ⟨block,chunks,byte_len,known,split,made⟩⟩⟩
  rintro ⟨block',chunks',byte_len',known',split',made⟩
  obtain rfl := Option.some.inj (known.symm.trans known')
  obtain ⟨rfl,_⟩ := ok_pair (split.symm.trans split')
  exact made

/-- What is made from the chunks of proposed blocks is authentic. -/
theorem Issuing.authentic (issuing : Issuing S derive m Readable Of) (blocks : List Block) :
    Authentic S derive m Readable (Issued Of m blocks) where
  verifies n p issued := by
    obtain ⟨chunks,count,sizes,same⟩ := issued.of
    exact (issuing.hereditary n chunks count sizes).verifies p ((same p).mp issued)
  width n p issued := by
    obtain ⟨chunks,count,sizes,same⟩ := issued.of
    exact ((issuing.hereditary n chunks count sizes).encodes p ((same p).mp issued)).width
  mixes n packets decoder proofs alphas chunk proof stored some_packet issued long mixed combined := by
    obtain ⟨first,listed⟩ := List.exists_mem_of_ne_nil _ some_packet
    obtain ⟨chunks,count,sizes,same⟩ := (issued first listed).of
    obtain ⟨chunk',proof',mixed',combined',made⟩ := (issuing.hereditary n chunks count sizes).mixes packets decoder proofs
      stored some_packet (fun p member => (same p).mp (issued p member)) alphas long
    obtain rfl := Except.ok.inj (mixed.symm.trans mixed')
    obtain rfl := Except.ok.inj (combined.symm.trans combined')
    exact (same _).mpr made
  readable n p issued readable := by
    obtain ⟨chunks,count,sizes,same⟩ := issued.of
    have back := issuing.readable n chunks p count ((same p).mp issued) readable
    rwa [((issuing.hereditary n chunks count sizes).encodes p ((same p).mp issued)).width] at back
  parsed n p q issued read := by
    obtain ⟨chunks,count,sizes,same⟩ := issued.of
    refine issuing.parsed n chunks p q count ((same p).mp issued) ?_
    rwa [((issuing.hereditary n chunks count sizes).encodes p ((same p).mp issued)).width]

theorem Issued.grows {blocks : List Block} (block : Block) (n : Nat) (p : SignedPacket F N Proof)
    (issued : Issued Of m blocks n p) : Issued Of m (blocks ++ [block]) n p := by
  obtain ⟨old,chunks,byte_len,known,split,made⟩ := issued
  refine ⟨old,chunks,byte_len,?_,split,made⟩
  rw [List.getElem?_append_left (List.getElem?_eq_some_iff.mp known).1]
  exact known

/-- What holds of a network at every moment. -/
structure Authored (S : IntegrityScheme F N Context Proof Error) (view : σ → CodedState F N Context Proof)
    (derive : Nat → Context) (m : Nat) (Of : Nat → List (Chunk F) → SignedPacket F N Proof → Prop) (Signing : σ → Prop)
    (config : Config σ K) (net : Network σ K) : Prop where
  receivers : ∀ k, CleanRun S view derive m (Issued Of m net.blocks) (net.receivers k)
  sent : ∀ e ∈ net.sent, e.channel = .Data →
    ∃ n data, n < net.blocks.length ∧ e.msg = message n data ∧ Carries (Issued Of m net.blocks) n data
  proposer : Signing net.proposer.protocol
  count : net.blocks.length ≤ config.num_blocks config.source

theorem Authored.propose (authors : Authors P Of m Signing) (limited : config.num_blocks config.source < 2 ^ 64)
    {net next : Network σ K} (authored : Authored S view derive m Of Signing config net)
    (ran : net.propose P config = some next) : Authored S view derive m Of Signing config next := by
  obtain ⟨proposer,proposed,more,made,rfl⟩ := Network.propose_cases ran
  obtain ⟨proposal,rest,payloads,block,_,packets⟩ := propose_block_ok made
  have signing : Signing (between_blocks P net.proposer net.blocks.length).protocol := by
    rcases between_blocks_protocol P net.proposer net.blocks.length with same | reset
    · rw [same]; exact authored.proposer
    · rw [reset]; exact authors.reset _ authored.proposer
  obtain ⟨signing',chunks,byte_len,split,each⟩ := authors.propose _ _ _ _ _ _ _ signing payloads
  have number : proposed.block.number.toNat = net.blocks.length := by
    rw [block,generate_random_block_number,UInt64.toNat_ofNat']
    omega
  have known : (net.blocks ++ [proposed.block])[net.blocks.length]? = some proposed.block := by simp
  have grows : ∀ n p, Issued Of m net.blocks n p → Issued Of m (net.blocks ++ [proposed.block]) n p :=
    Issued.grows proposed.block
  refine ⟨fun k => (authored.receivers k).grows grows,?_,signing',?_⟩
  · intro e member data_message
    rcases List.mem_append.mp member with old | new
    · obtain ⟨n,data,inside,same,p,written,issued⟩ := authored.sent e old data_message
      exact ⟨n,data,by rw [List.length_append]; omega,same,p,written,grows n p issued⟩
    · rcases List.mem_cons.mp new with rfl | packet
      · cases data_message
      · obtain ⟨entry,listed,rfl⟩ := List.mem_map.mp packet
        obtain ⟨payload,inside,same⟩ := packets entry listed
        obtain ⟨p,written,made⟩ := each payload inside
        rw [number] at made
        exact ⟨net.blocks.length,payload,by simp,same,p,written,proposed.block,chunks,byte_len,known,split,made⟩
  · rw [List.length_append,List.length_singleton]
    omega

theorem Authored.deliver (coded : Coded P S view) (issuing : Issuing S derive m Readable Of)
    (limited : config.num_blocks config.source < 2 ^ 64) {net : Network σ K}
    (authored : Authored S view derive m Of Signing config net) (k : K) {e : Envelope K} (flying : e ∈ net.sent) :
    Authored S view derive m Of Signing config (net.deliver P config k e) := by
  have bound := authored.count
  have arrives : Arrives (Original (Issued Of m net.blocks)) e.channel e.msg := by
    intro _
    obtain ⟨sender,recipient,channel,msg⟩ := e
    cases channel with
    | Announce => trivial
    | Data =>
      obtain ⟨n,data,inside,same,carries⟩ := authored.sent _ flying rfl
      obtain ⟨first,second⟩ := message_number (n := n) (by omega) data
      simp only at same
      simp only [same,first,second]
      exact carries
  have run : CleanRun S view derive m (Issued Of m net.blocks)
      ((net.receivers k).receive P (config.num_blocks k) e.sender e.channel e.msg) :=
    receive_run (clean_keeps coded (issuing.authentic net.blocks)) (config.num_blocks k) e.sender (authored.receivers k) arrives
  refine ⟨?_,?_,authored.proposer,authored.count⟩
  · intro j
    by_cases same : j = k
    · subst same
      simpa [Network.deliver] using run
    · simpa [Network.deliver,same] using authored.receivers j
  · intro e' member data_message
    rcases List.mem_append.mp member with old | new
    · exact authored.sent e' old data_message
    · obtain ⟨event,listed,sent⟩ := List.mem_flatMap.mp new
      have known := run.witnessed event (List.mem_of_mem_drop listed)
      cases event with
      | ingest s channel n data => cases sent
      | decoded n block => cases sent
      | announced msg =>
        obtain rfl := List.mem_singleton.mp sent
        cases data_message
      | forwarded n batch =>
        obtain ⟨entry,inside,rfl⟩ := List.mem_map.mp sent
        obtain ⟨data,same,p,written,issued⟩ := known entry inside
        obtain ⟨block,_,_,found,_⟩ := id issued
        exact ⟨n,data,(List.getElem?_eq_some_iff.mp found).1,same,p,written,issued⟩

/-- Every packet in every run is one of the proposer, or a mixture of them. -/
theorem run_authored (coded : Coded P S view) (issuing : Issuing S derive m Readable Of) (authors : Authors P Of m Signing)
    (limited : config.num_blocks config.source < 2 ^ 64) (ready : Ready view derive m config)
    (signing : Signing (config.protocol config.source)) {net : Network σ K} {actions : List (Action K)}
    (ran : config.start.run P config actions = some net) : Authored S view derive m Of Signing config net := by
  have start : Authored S view derive m Of Signing config config.start :=
    ⟨fun k => run_new _ rfl rfl (ready k),by simp [Config.start],signing,by simp [Config.start]⟩
  refine Network.run_keeps P config ?_ start ran
  intro net action next authored stepped
  cases action with
  | propose => exact authored.propose authors limited stepped
  | deliver k i =>
    obtain ⟨_,found,_,_,rfl⟩ := Network.deliver_cases stepped
    exact authored.deliver coded issuing limited k (List.mem_of_getElem? found)

/-- Every data message in flight is the wire form of a packet that verifies for its block, and a
    receiver that hands one to its protocol has it refused only when it cannot be read. -/
theorem run_never_refuses (coded : Coded P S view) (issuing : Issuing S derive m Readable Of) (authors : Authors P Of m Signing)
    (limited : config.num_blocks config.source < 2 ^ 64) (ready : Ready view derive m config)
    (signing : Signing (config.protocol config.source)) {net : Network σ K} {actions : List (Action K)}
    (ran : config.start.run P config actions = some net) :
    (∀ e ∈ net.sent, e.channel = .Data → ∃ n, ∃ p : SignedPacket F N Proof, n < net.blocks.length ∧
      e.msg = message n p.serialize ∧ Verifies S (derive n) p) ∧
    ∀ k s n data, .ingest s .Data n data ∈ (net.receivers k).log → ∃ p : SignedPacket F N Proof, data = p.serialize ∧
      ((∃ t useful, P.ingest s .Data n data = .ok (t,.ok useful)) ↔ Readable p) := by
  have authored := run_authored coded issuing authors limited ready signing ran
  have authentic := issuing.authentic net.blocks
  constructor
  · intro e member data_message
    obtain ⟨n,data,inside,same,p,rfl,issued⟩ := authored.sent e member data_message
    exact ⟨n,p,inside,same,authentic.verifies n p issued⟩
  · intro k s n data member
    obtain ⟨clean,p,rfl,issued⟩ := (authored.receivers k).witnessed _ member
    refine ⟨p,rfl,?_⟩
    rcases clean.ingest coded authentic issued with ⟨unreadable,t,e,answered,_⟩ | ⟨readable,t,useful,answered,_⟩
    · constructor
      · rintro ⟨t',useful,taken⟩
        rw [answered] at taken
        cases (Prod.mk.inj (Except.ok.inj taken)).2
      · exact fun readable => absurd readable unreadable
    · exact ⟨fun _ => readable,fun _ => ⟨t,useful,answered⟩⟩

end

/-! ### The two coded protocols -/

section
open Rlnc.Scalars Rlnc.Pedersen Rlnc.PedersenStrategy Rlnc.PedersenProtocol

variable {G S PublicKey Signature K : Type} [AddCommGroup G] [DecidableEq G] [Module Scalar G] [Space Scalar G] [LawfulSpace Scalar G]
  [HashToGroup G] [FixedCodec G] [WrittenElement G] [Verifier PublicKey Signature] [Signer S PublicKey Signature]
  [LawfulSigner S PublicKey Signature] [FixedCodec Signature] [WrittenCodec Signature] [FixedCodec Scalar] [LawfulScalarCodec]
  [Random Scalar] [FixedCodec UInt32] [WrittenCodec UInt32] [FixedCodec UInt64] [BytesCodec] [SliceRandom] [DecidableEq K]
  {N m : Nat}

/-- Packets with the proof of their block are read up to 1024 chunks. -/
theorem pedersen_issuing (countable : N < 2 ^ 32) (signer : PedersenSigner S) :
    Issuing (PedersenScheme Scalar G PublicKey Signature N) (fun _ => signer.context (CommitmentKey.canonical m)) m
      (fun _ => N ≤ 1024) (fun _ chunks => PedersenStrategy.OfBlock (N := N) signer (CommitmentKey.canonical m) m chunks) where
  hereditary _ chunks count sizes := PedersenStrategy.of_block_hereditary
    (by simp [CommitmentKey.canonical,CommitmentKey.deterministic]) count sizes
  readable _ chunks p count made few := by
    have short : p.proof.commitments.length ≤ 1024 := by
      rw [made.1]
      simpa [block_proof,Pedersen.commitments,count] using few
    have back := p.deserialize_serialize [] (pedersen_proof_back p.proof short)
    rwa [List.append_nil] at back
  parsed _ chunks p q count made read := by
    have many : p.proof.commitments.length = N := by
      rw [made.1]
      simp [block_proof,Pedersen.commitments,count]
    obtain ⟨_,_,proof_read⟩ := p.deserialize_written [] (by rw [List.append_nil]; exact read)
    rw [← many]
    exact pedersen_refused (by rw [many]; exact countable) proof_read

/-- A proposer with this key sends such packets. -/
theorem pedersen_authors (signer : PedersenSigner S) :
    Authors (protocol Scalar G S PublicKey Signature N)
      (fun _ chunks => PedersenStrategy.OfBlock (N := N) signer (CommitmentKey.canonical m : CommitmentKey G) m chunks) m
      (fun s => s.signer = some signer ∧ s.ctx.key = CommitmentKey.canonical m ∧ s.m = m) where
  propose s block count rng t proposal rest signing ran := by
    obtain ⟨signs,key,rfl⟩ := signing
    have width : s.ctx.key.generators.length = s.m := by
      rw [key]
      simp [CommitmentKey.canonical,CommitmentKey.deterministic]
    obtain ⟨⟨signs',context,width'⟩,chunks,byte_len,split,each⟩ := pedersen_proposal signs width ran
    refine ⟨⟨signs'.trans signs,by rw [context]; exact key,width'⟩,chunks,byte_len,split,fun bytes member => ?_⟩
    obtain ⟨p,written,made,_⟩ := each bytes member
    rw [key] at made
    exact ⟨p,written,made⟩
  reset s signing := signing

variable {config : Config (PedersenProtocol Scalar G S PublicKey Signature N) K}

/-- In a network of honest nodes with Pedersen commitments every data message in flight verifies for
    its block, and up to 1024 chunks no data packet that is handed to a protocol is refused. -/
theorem pedersen_never_refused (countable : N < 2 ^ 32) {signer : PedersenSigner S}
    {signers : K → Option (PedersenSigner S)} (signs : signers config.source = some signer)
    (fresh : ∀ k, config.protocol k = PedersenProtocol.new m (Signer.public_key signer.signer) (signers k))
    (limited : config.num_blocks config.source < 2 ^ 64) {net : Network (PedersenProtocol Scalar G S PublicKey Signature N) K}
    {actions : List (Action K)}
    (ran : config.start.run (protocol Scalar G S PublicKey Signature N) config actions = some net) :
    (∀ e ∈ net.sent, e.channel = .Data → ∃ n, ∃ p : PedersenPacket G Signature N, n < net.blocks.length ∧
      e.msg = message n p.serialize ∧
      Verifies (PedersenScheme Scalar G PublicKey Signature N) (signer.context (CommitmentKey.canonical m)) p) ∧
    ∀ k s n data, .ingest s .Data n data ∈ (net.receivers k).log → ∃ p : PedersenPacket G Signature N, data = p.serialize ∧
      ((∃ t useful, (protocol Scalar G S PublicKey Signature N).ingest s .Data n data = .ok (t,.ok useful)) ↔ N ≤ 1024) := by
  refine run_never_refuses coded (pedersen_issuing countable signer) (pedersen_authors signer) limited ?_ ?_ ran
  · intro k
    rw [fresh k]
    exact ⟨⟨rfl,rfl⟩,rfl,rfl⟩
  · rw [fresh]
    exact ⟨signs,rfl,rfl⟩

end

section
open Rlnc.Scalars Rlnc.Bfkw Rlnc.BfkwProtocol
open Rlnc.Agreement (number_context)

variable {G1 G2 K : Type} [AddCommGroup G1] [Module Scalar G1] [AddCommGroup G2] [Module Scalar G2] [Space Scalar G2]
  [LawfulSpace Scalar G2] [HashToGroup G2] [PairingGroup G1 G2] [LawfulPairing Scalar G1 G2] [FixedCodec G2]
  [LawfulElement G2] [FixedCodec Scalar] [LawfulScalarCodec] [Random Scalar] [FixedCodec UInt64] [BytesCodec] [SliceRandom]
  [DecidableEq K] {N m : Nat}

/-- Signed packets are read unless their signature is the identity. -/
theorem bfkw_issuing {signer : BfkwSigner Scalar G1} (keyed : signer.Keyed G2) :
    Issuing (BfkwScheme Scalar G1 G2 N) (number_context N m signer.pk) m (fun p => p.proof.sigma ≠ 0)
      (fun n chunks => Sealed (N := N) signer.sk (signer.setup_context N (to_be 8 n) m) m chunks) where
  hereditary n chunks count _ := (bfkw_carried (setup_keyed (m := m) signer keyed (to_be 8 n)) count).toHereditary
  readable _ _ p _ _ nonzero := by
    have back := p.deserialize_serialize [] (bfkw_proof_back p.proof nonzero)
    rwa [List.append_nil] at back
  parsed _ _ p q _ _ read := by
    obtain ⟨_,_,proof_read⟩ := p.deserialize_written [] (by rw [List.append_nil]; exact read)
    exact bfkw_refused proof_read

/-- A proposer with this key sends such packets. -/
theorem bfkw_authors (signer : BfkwSigner Scalar G1) :
    Authors (protocol Scalar G1 G2 N)
      (fun n chunks => Sealed (N := N) signer.sk (signer.setup_context N (to_be 8 n) m : BfkwContext G1 G2) m chunks) m
      (fun s => s.signer = some signer ∧ s.m = m) where
  propose s block count rng t proposal rest signing ran := by
    obtain ⟨signs,rfl⟩ := signing
    obtain ⟨⟨signs',width⟩,chunks,byte_len,split,each⟩ := bfkw_proposal signs ran
    exact ⟨⟨signs'.trans signs,width⟩,chunks,byte_len,split,each⟩
  reset s signing := signing

variable {config : Config (BfkwProtocol Scalar G1 G2 N) K}

/-- In a network of honest nodes with BFKW signatures every data message in flight verifies for its
    block, and a data packet that is handed to a protocol is refused only if its signature is the identity. -/
theorem bfkw_never_refused {signer : BfkwSigner Scalar G1} (keyed : signer.Keyed G2)
    {signers : K → Option (BfkwSigner Scalar G1)} (signs : signers config.source = some signer)
    (fresh : ∀ k, config.protocol k = BfkwProtocol.new m signer.pk (signers k))
    (limited : config.num_blocks config.source < 2 ^ 64) {net : Network (BfkwProtocol Scalar G1 G2 N) K}
    {actions : List (Action K)} (ran : config.start.run (protocol Scalar G1 G2 N) config actions = some net) :
    (∀ e ∈ net.sent, e.channel = .Data → ∃ n, ∃ p : SignedPacket Scalar N (BfkwProof G2), n < net.blocks.length ∧
      e.msg = message n p.serialize ∧ Verifies (BfkwScheme Scalar G1 G2 N) (number_context N m signer.pk n) p) ∧
    ∀ k s n data, .ingest s .Data n data ∈ (net.receivers k).log → ∃ p : SignedPacket Scalar N (BfkwProof G2),
      data = p.serialize ∧
      ((∃ t useful, (protocol Scalar G1 G2 N).ingest s .Data n data = .ok (t,.ok useful)) ↔ p.proof.sigma ≠ 0) := by
  refine run_never_refuses coded (bfkw_issuing keyed) (bfkw_authors signer) limited ?_ ?_ ran
  · intro k
    rw [fresh k]
    exact ⟨⟨rfl,rfl⟩,rfl,rfl⟩
  · rw [fresh]
    exact ⟨signs,rfl⟩

end

/-! ### Three nodes -/

section
open Rlnc.Scalars Rlnc.Reference Rlnc.Pedersen Rlnc.PedersenProtocol Rlnc.Bfkw Rlnc.BfkwProtocol
open Rlnc.Agreement (number_context)

private def all_three {σ : Type} (protocol : Nat → σ) : Config σ Nat :=
  ⟨0,protocol,fun k => [0,1,2].filter (· ≠ k),fun _ => 2,fun _ => Stream'.const 1,fun _ => 1,0⟩

private def three_pedersen : Config (PedersenProtocol Scalar Scalar Bytes Bytes UInt64 2) Nat :=
  all_three fun k => PedersenProtocol.new 5 [7] (if k = 0 then some ⟨[7]⟩ else none)

private def three_bfkw : Config (BfkwProtocol Scalar Scalar Scalar 2) Nat :=
  all_three fun k => BfkwProtocol.new 5 (scalar 3) (if k = 0 then some ⟨scalar 3,scalar 3⟩ else none)

/-- The second node takes a packet of the first and forwards to the third. -/
private def relayed : List (Action Nat) := [.propose,.deliver 1 0,.deliver 1 2]

/-- The messages of the second node. -/
private def from_second {σ : Type} (net : Network σ Nat) : List (Envelope Nat) :=
  net.sent.filter fun e => e.sender = 1 ∧ e.channel = .Data

/-- What the second node forwards verifies, and it took what it was given. -/
theorem pedersen_never_refused_three :
    ∃ net, three_pedersen.start.run (PedersenProtocol.protocol Scalar Scalar Bytes Bytes UInt64 2) three_pedersen relayed =
        some net ∧ (from_second net).length = 1 ∧
      (∀ e ∈ from_second net, ∃ p : SignedPacket Scalar 2 (PedersenProof Scalar UInt64), e.msg = message 0 p.serialize ∧
        Verifies (PedersenScheme Scalar Scalar Bytes UInt64 2) ((⟨[7]⟩ : PedersenSigner Bytes).context (CommitmentKey.canonical 5)) p) ∧
      ∀ s data, .ingest s .Data 0 data ∈ (net.receivers 1).log → ∃ t useful,
        (PedersenProtocol.protocol Scalar Scalar Bytes Bytes UInt64 2).ingest s .Data 0 data = .ok (t,.ok useful) := by
  have seen : (three_pedersen.start.run (PedersenProtocol.protocol Scalar Scalar Bytes Bytes UInt64 2) three_pedersen
      relayed).map (fun net => ((from_second net).length,net.blocks.length)) = some (1,1) := by decide +kernel
  obtain ⟨net,ran,counts⟩ := Option.map_eq_some_iff.mp seen
  obtain ⟨count,proposed⟩ := Prod.mk.inj counts
  obtain ⟨verified,accepted⟩ := pedersen_never_refused (m := 5) (by decide : 2 < 2 ^ 32)
    (show (fun k : Nat => if k = 0 then some (⟨[7]⟩ : PedersenSigner Bytes) else none) three_pedersen.source = some ⟨[7]⟩ from rfl)
    (fun _ => rfl) (by decide) ran
  refine ⟨net,ran,count,?_,?_⟩
  · intro e member
    obtain ⟨listed,chosen⟩ := List.mem_filter.mp member
    obtain ⟨n,p,inside,same,good⟩ := verified e listed (of_decide_eq_true chosen).2
    obtain rfl : n = 0 := by omega
    exact ⟨p,same,good⟩
  · intro s data member
    obtain ⟨p,_,exactly⟩ := accepted 1 s 0 data member
    exact exactly.mpr (by decide)

/-- The same with signatures, of which the first is not the identity. -/
theorem bfkw_never_refused_three :
    ∃ net, three_bfkw.start.run (BfkwProtocol.protocol Scalar Scalar Scalar 2) three_bfkw relayed = some net ∧
      (from_second net).length = 1 ∧
      ∀ e ∈ from_second net, ∃ p : SignedPacket Scalar 2 (BfkwProof Scalar), e.msg = message 0 p.serialize ∧
        Verifies (BfkwScheme Scalar Scalar Scalar 2) (number_context 2 5 (scalar 3) 0) p := by
  have seen : (three_bfkw.start.run (BfkwProtocol.protocol Scalar Scalar Scalar 2) three_bfkw relayed).map
      (fun net => ((from_second net).length,net.blocks.length)) = some (1,1) := by decide +kernel
  obtain ⟨net,ran,counts⟩ := Option.map_eq_some_iff.mp seen
  obtain ⟨count,proposed⟩ := Prod.mk.inj counts
  have keyed : (⟨scalar 3,scalar 3⟩ : BfkwSigner Scalar Scalar).Keyed Scalar := by
    unfold BfkwSigner.Keyed
    decide +kernel
  obtain ⟨verified,_⟩ := bfkw_never_refused (m := 5) keyed
    (show (fun k : Nat => if k = 0 then some (⟨scalar 3,scalar 3⟩ : BfkwSigner Scalar Scalar) else none)
      three_bfkw.source = some ⟨scalar 3,scalar 3⟩ from rfl) (fun _ => rfl) (by decide) ran
  refine ⟨net,ran,count,fun e member => ?_⟩
  obtain ⟨listed,chosen⟩ := List.mem_filter.mp member
  obtain ⟨n,p,inside,same,good⟩ := verified e listed (of_decide_eq_true chosen).2
  obtain rfl : n = 0 := by omega
  exact ⟨p,same,good⟩

end

end Rlnc.Acceptance
