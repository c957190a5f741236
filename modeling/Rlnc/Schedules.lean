import Rlnc.Network
import Rlnc.Relaying
import Rlnc.Strategies

/-!
Schedules of the network for one block. Whatever nodes can do that relay vectors
(`Relaying`), the nodes of the network can do with their coefficient vectors: some random
outcomes and some deliveries follow any sequence of steps (`Realizable.reaches`).
-/
namespace Rlnc.Schedules
open Rlnc.Panics Rlnc.Combination Rlnc.Wire Rlnc.Packing Rlnc.Coding Rlnc.Draws Rlnc.Blocks Rlnc.Integrity
open Rlnc.Protocols Rlnc.Strategies Rlnc.Actor Rlnc.Runs Rlnc.CodedRuns Rlnc.Network
set_option linter.unusedSectionVars false

/-! ### Outcomes for what a node draws -/

/-- The same bytes can be drawn whatever comes after them. -/
theorem random_bytes_again (n : Nat) (rng : Rng) :
    ∃ draws : List Nat, ∀ rest, random_bytes n (draws ++ₛ rest) = ((random_bytes n rng).1,rest) := by
  induction n generalizing rng with
  | zero => exact ⟨[],fun _ => rfl⟩
  | succ n ih =>
    obtain ⟨draws,gives⟩ := ih rng.tail
    refine ⟨rng.head :: draws,fun rest => ?_⟩
    simp only [Stream'.cons_append_stream,random_bytes,Stream'.tail_cons,Stream'.head_cons,gives]

/-- So can the same block. -/
theorem block_again (size n : Nat) (rng : Rng) :
    ∃ draws : List Nat, ∀ rest, generate_random_block size n (draws ++ₛ rest) = ((generate_random_block size n rng).1,rest) := by
  obtain ⟨first,gives⟩ := random_bytes_again size rng
  obtain ⟨second,gives'⟩ := random_bytes_again 32 (random_bytes size rng).2
  obtain ⟨third,gives''⟩ := random_bytes_again 32 (random_bytes 32 (random_bytes size rng).2).2
  refine ⟨first ++ (second ++ third),fun rest => ?_⟩
  rw [Stream'.append_append_stream,Stream'.append_append_stream]
  simp only [generate_random_block,gives,gives',gives'']

/-- Some of the elements can be shuffled to the front. -/
theorem shuffle_front [SliceRandom] [LawfulSliceRandom] {K : Type} [DecidableEq K] (targets candidates : List K)
    (nodup : targets.Nodup) (inside : ∀ k ∈ targets, k ∈ candidates) :
    ∃ draw rest, SliceRandom.shuffle draw candidates = targets ++ rest := by
  have permuted := List.subperm_append_diff_self_of_count_le
    (fun k _ => (List.subperm_of_subset nodup inside).count_le k)
  obtain ⟨draw,shuffled⟩ := LawfulSliceRandom.every candidates _ permuted
  exact ⟨draw,_,shuffled⟩

section
variable {F : Type} [Field F] [DecidableEq F] {N : Nat} {Context Proof Error : Type} [FixedCodec F] [IntegrityProof Proof]
  [Random F] [LawfulRandom F] {S : IntegrityScheme F N Context Proof Error}

/-- Any lists of scalars without zeros can be the coefficients of what is forwarded. -/
theorem coded_forward_given (count : Nat) (chosen : List (List F)) (long : ∀ alphas ∈ chosen, alphas.length = count)
    (nonzero : ∀ alphas ∈ chosen, ∀ a ∈ alphas, a ≠ 0) :
    ∃ draws : List Nat, ∀ (decoder : BlockDecoder F N) (proofs : List Proof) (Mixes : List F → SignedPacket F N Proof → Prop),
      decoder.rank = count →
      (∀ alphas : List F, alphas.length = count → ∃ q : SignedPacket F N Proof, decoder.reencode_with alphas = .ok q.chunk ∧
        S.combine proofs alphas = .ok q.proof ∧ Mixes alphas q) →
      ∀ rest, ∃ sent, coded_forward S decoder proofs chosen.length (draws ++ₛ rest) = .ok (sent,rest) ∧
        List.Forall₂ Mixes chosen sent := by
  induction chosen with
  | nil => exact ⟨[],fun _ _ _ _ _ rest => ⟨[],rfl,.nil⟩⟩
  | cons alphas chosen ih =>
    obtain ⟨later,goes_on⟩ := ih (fun as member => long as (List.mem_cons_of_mem _ member))
      fun as member => nonzero as (List.mem_cons_of_mem _ member)
    obtain ⟨first,gives⟩ := random_coefficients_every alphas (nonzero alphas (by simp))
    refine ⟨first ++ later,fun decoder proofs Mixes rank mixes rest => ?_⟩
    obtain ⟨sent,ran,all⟩ := goes_on decoder proofs Mixes rank mixes rest
    have here := long alphas (by simp)
    obtain ⟨q,mixed,combined,good⟩ := mixes alphas here
    refine ⟨q :: sent,?_,.cons good all⟩
    rw [Stream'.append_append_stream]
    rw [coded_forward] at ran
    simp only [coded_forward,List.length_cons,collect,forward_one,rank,← here,gives,mixed,combined,ok_bind,pure_eq]
    simp only [ran,ok_bind]

end

/-! ### A receiver that takes packets -/

/-- The receiver handed a packet of block `n` to the protocol that completed it. -/
def Reached {σ K : Type} (P : Protocol σ) (n : Nat) (node : Receiver σ K) : Prop :=
  ∃ s t data, .ingest s .Data n data ∈ node.log ∧ P.ingest s .Data n data = .ok (t,.ok true) ∧ P.is_complete t = true

section
variable {F : Type} [Field F] [DecidableEq F] {N : Nat} {Context Proof Error : Type} [FixedCodec F] [IntegrityProof Proof]
  [Random F] [PackableField F] [FixedCodec UInt64] [BytesCodec] {σ K W : Type} [AddCommGroup W] [Module F W]

/-- Mixtures of genuine packets are genuine, and those on which `image` does not vanish are
    read back from their wire form. -/
structure Carried (S : IntegrityScheme F N Context Proof Error) (ctx : Context) (m : Nat) (chunks : List (Chunk F))
    (Genuine : SignedPacket F N Proof → Prop) (image : (Fin N → F) →ₗ[F] W) : Prop
    extends Hereditary S ctx m chunks Genuine where
  readable : ∀ p, Genuine p → image p.chunk.coefficients ≠ 0 →
    (SignedPacket.deserialize p.serialize m : Rust (Except String (SignedPacket F N Proof))) = .ok (.ok p)

/-- A receiver that takes the packets of block 0, and has taken genuine ones with these coefficients. -/
structure Working (S : IntegrityScheme F N Context Proof Error) (view : σ → CodedState F N Context Proof) (ctx : Context)
    (m : Nat) (Genuine : SignedPacket F N Proof → Prop) (peers : List K) (degree : Nat) (held : List (Fin N → F))
    (node : Receiver σ K) : Prop where
  alive : node.panicked = none
  state : node.state = .Decoding 0
  buffer : node.buffer = []
  count : node.decoded_count = 0
  peers : node.peers = peers
  degree : node.mesh_degree = degree
  width : (view node.protocol).m = m
  context : (view node.protocol).ctx = some ctx
  stored : ∃ packets, Stored S ctx m packets (view node.protocol).decoder (view node.protocol).proofs ∧
    (∀ p ∈ packets, Genuine p) ∧ packets.map (fun p => p.chunk.coefficients) = held

variable [DecidableEq K] [SliceRandom] {P : Protocol σ} {S : IntegrityScheme F N Context Proof Error}
  {view : σ → CodedState F N Context Proof} {ctx : Context} {m : Nat} {chunks : List (Chunk F)}
  {Genuine : SignedPacket F N Proof → Prop} {image : (Fin N → F) →ₗ[F] W} {peers : List K} {degree : Nat}
  {held : List (Fin N → F)} {node : Receiver σ K}

/-- A genuine packet that is readable and new to the receiver is stored. -/
theorem Working.ingest (working : Working S view ctx m Genuine peers degree held node) (coded : Coded P S view)
    (carried : Carried S ctx m chunks Genuine image) {p : SignedPacket F N Proof} (genuine : Genuine p)
    (readable : image p.chunk.coefficients ≠ 0) (fresh : p.chunk.coefficients ∉ Submodule.span F {x | x ∈ held}) :
    ∃ t, P.ingest node.protocol .Data 0 p.serialize = .ok (t,.ok true) ∧
      ((view t).decoder.is_complete = true ↔ held.length + 1 = N) ∧ ∀ next : Receiver σ K, next.protocol = t →
        next.panicked = none → next.state = .Decoding 0 → next.buffer = [] → next.decoded_count = 0 → next.peers = peers →
        next.mesh_degree = degree →
        Working S view ctx m Genuine peers degree (held ++ [p.chunk.coefficients]) next := by
  obtain ⟨packets,stored,good,rfl⟩ := working.stored
  have seen := coded.data node.protocol 0 p.serialize
  simp only [CodedState.receive,working.context,working.width,carried.readable p genuine readable,ok_bind] at seen
  have span : coefficient_span (view node.protocol).decoder.coded_chunks =
      Submodule.span F {x | x ∈ packets.map fun p => p.chunk.coefficients} := by
    rw [coefficient_span,stored.chunks,List.map_map]
    rfl
  rcases coded_receive_spec stored p (carried.encodes p genuine).width (carried.verifies p genuine) with
    ⟨e,refused,_⟩ | ⟨_,known,_⟩ | ⟨_,_,_,decoder',proofs',ran,grown⟩
  · cases refused
  · rw [span] at known
    exact absurd known fresh
  · rw [ran] at seen
    obtain ⟨⟨t,r⟩,answered,view_same⟩ := map_ok seen
    obtain ⟨next_view,rfl⟩ := Prod.mk.inj view_same
    refine ⟨t,answered,?_,?_⟩
    · rw [next_view]
      simp only
      rw [BlockDecoder.is_complete_iff grown.sound,grown.chunks]
      simp
    · rintro next rfl alive state buffer count peers degree
      refine ⟨alive,state,buffer,count,peers,degree,by rw [next_view],by rw [next_view],packets ++ [p],?_,?_,by simp⟩
      · rw [next_view]; exact grown
      · intro q member
        rcases List.mem_append.mp member with old | new
        · exact good q old
        · rw [List.mem_singleton.mp new]; exact genuine

omit [Random F] [PackableField F] [FixedCodec UInt64] [BytesCodec] [DecidableEq K] [SliceRandom] in
/-- What was made for the first targets is sent to them. -/
theorem zip_given {α β γ : Type} {R : α → β → Prop} {sends : List (K × α)} {fill : List α} {sent : List β}
    (all : List.Forall₂ R (sends.map Prod.snd ++ fill) sent) (more : List K) (f : β → γ) :
    ∀ entry ∈ sends, ∃ q, (entry.1,f q) ∈ (sends.map Prod.fst ++ more).zip (sent.map f) ∧ R entry.2 q := by
  induction sends generalizing sent with
  | nil => simp
  | cons first sends ih =>
    cases all with
    | @cons _ q _ sent here later =>
      intro entry member
      rcases List.mem_cons.mp member with rfl | old
      · exact ⟨q,by simp,here⟩
      · obtain ⟨q',listed,good⟩ := ih later entry old
        exact ⟨q',by simp [listed],good⟩

/-- What a receiver sends when it forwards. -/
theorem forward_sent (self : Receiver σ K) (n : Nat) (sender : Option K) {packets : List Bytes} {rng : Rng}
    (ran : P.recode self.protocol self.mesh_degree self.rng = .ok (packets,rng)) :
    self.forward P n sender = ({ self with forwarded := true, rng := rng.tail } : Receiver σ K).record (.forwarded n
      (((SliceRandom.shuffle rng.head (self.peers.filter fun p => sender ≠ some p)).take self.mesh_degree).zip
        (packets.map (message n)))) := by
  simp only [Receiver.forward,ran]
  rfl

variable (held) in
/-- A receiver can be made to send any mixtures of what it holds to a few other peers. -/
theorem forward_given [LawfulRandom F] [LawfulSliceRandom] (coded : Coded P S view)
    (carried : Carried S ctx m chunks Genuine image) {sender : K} {sends : List (K × List F)} (few : sends.length ≤ degree)
    (nodup : (sends.map Prod.fst).Nodup) (others : ∀ entry ∈ sends, entry.1 ∈ peers ∧ entry.1 ≠ sender)
    (some_held : held ≠ []) (long : ∀ entry ∈ sends, entry.2.length = held.length)
    (nonzero : ∀ entry ∈ sends, ∀ a ∈ entry.2, a ≠ 0) :
    ∃ draws : List Nat, ∀ (node : Receiver σ K) (rest : Rng), Working S view ctx m Genuine peers degree held node →
      node.rng = draws ++ₛ rest → ∃ batch,
        node.forward P 0 (some sender) = ({ node with forwarded := true, rng := rest } : Receiver σ K).record
          (.forwarded 0 batch) ∧
        ∀ entry ∈ sends, ∃ q, (entry.1,message 0 q.serialize) ∈ batch ∧ Genuine q ∧
          q.chunk.coefficients = comb entry.2 held := by
  let fill : List (List F) := List.replicate (degree - sends.length) (List.replicate held.length 1)
  have member_fill : ∀ alphas ∈ fill, alphas = List.replicate held.length 1 := fun alphas => List.eq_of_mem_replicate
  obtain ⟨draws,gives⟩ := coded_forward_given (S := S) (N := N) held.length (sends.map Prod.snd ++ fill)
    (by
      intro alphas member
      rcases List.mem_append.mp member with wanted | filler
      · obtain ⟨entry,listed,rfl⟩ := List.mem_map.mp wanted
        exact long entry listed
      · simp [member_fill alphas filler])
    (by
      intro alphas member
      rcases List.mem_append.mp member with wanted | filler
      · obtain ⟨entry,listed,rfl⟩ := List.mem_map.mp wanted
        exact nonzero entry listed
      · rw [member_fill alphas filler]
        intro a inside
        rw [List.eq_of_mem_replicate inside]
        exact one_ne_zero)
  have total : (sends.map Prod.snd ++ fill).length = degree := by
    simp only [fill,List.length_append,List.length_map,List.length_replicate]
    omega
  obtain ⟨draw,tail,shuffled⟩ := shuffle_front (sends.map Prod.fst)
    (peers.filter fun p => (some sender : Option K) ≠ some p) nodup (by
      intro k member
      obtain ⟨entry,listed,rfl⟩ := List.mem_map.mp member
      obtain ⟨peer,different⟩ := others entry listed
      simpa [peer] using Ne.symm different)
  refine ⟨draws ++ [draw],fun node rest working drawn => ?_⟩
  obtain ⟨packets,stored,good,same⟩ := working.stored
  have count : packets.length = held.length := by rw [← same,List.length_map]
  have some_packet : packets ≠ [] := by
    rintro rfl
    exact some_held same.symm
  obtain ⟨sent,ran,all⟩ := gives (view node.protocol).decoder (view node.protocol).proofs
    (fun alphas q => Genuine q ∧ q.chunk.coefficients = comb alphas held) (stored.rank.trans count) (by
      intro alphas size
      obtain ⟨chunk,proof,mixed,combined,genuine⟩ := carried.mixes packets _ _ stored some_packet good alphas (size.trans count.symm)
      obtain ⟨chunk',mixed',_,_,coefficients⟩ := stored.reencode some_packet (size.trans count.symm)
      obtain rfl : chunk = chunk' := Except.ok.inj (mixed.symm.trans mixed')
      exact ⟨⟨chunk,proof⟩,mixed,combined,genuine,by rw [coefficients,same]⟩) (Stream'.cons draw rest)
  rw [total] at ran
  have recoded : P.recode node.protocol node.mesh_degree node.rng = .ok (sent.map SignedPacket.serialize,Stream'.cons draw rest) := by
    rw [coded.recode,working.degree,drawn,Stream'.append_append_stream]
    simp only [CodedState.recode,Stream'.cons_append_stream,Stream'.nil_append_stream,ran,ok_bind,pure_eq]
  refine ⟨_,forward_sent node 0 (some sender) recoded,fun entry member => ?_⟩
  obtain ⟨q,listed,genuine,coefficients⟩ := zip_given all (tail.take (degree - (sends.map Prod.fst).length))
    (fun q => message 0 q.serialize) entry member
  refine ⟨q,?_,genuine,coefficients⟩
  rw [working.peers,working.degree,Stream'.head_cons,shuffled,List.take_append,
    List.take_of_length_le (by simpa using few),List.map_map]
  exact listed

/-- Nothing is taken from an empty buffer, and the log keeps its events. -/
theorem finish_still (self : Receiver σ K) (n : Nat) (empty : self.buffer = []) :
    (self.finish P n).2 = [] ∧ ∀ event ∈ self.log, event ∈ (self.finish P n).1.log := by
  cases decoded : P.decode self.protocol with
  | error p =>
    rw [self.finish_panics P n decoded]
    exact ⟨rfl,fun event member => member⟩
  | ok result =>
    by_cases more : self.decoded_count + 1 < 2 ^ 64 ∧ n + 1 < 2 ^ 64
    · rw [self.finish_advances P n decoded more.1 more.2,empty]
      exact ⟨rfl,fun event member => List.mem_append_left _ member⟩
    · obtain ⟨count,stopped⟩ := self.finish_overflows P n decoded (by omega)
      rw [stopped]
      exact ⟨rfl,fun event member => List.mem_append_left _ member⟩

/-- The receiver after its protocol took a packet. -/
def heard (self : Receiver σ K) (data : Bytes) (t : σ) : Receiver σ K :=
  { self.record (.ingest self.protocol .Data 0 data) with protocol := t }

@[simp] theorem heard_protocol (self : Receiver σ K) (data : Bytes) (t : σ) : (heard self data t).protocol = t := rfl
@[simp] theorem heard_panicked (self : Receiver σ K) (data : Bytes) (t : σ) :
    (heard self data t).panicked = self.panicked := rfl
@[simp] theorem heard_log (self : Receiver σ K) (data : Bytes) (t : σ) :
    (heard self data t).log = self.log ++ [.ingest self.protocol .Data 0 data] := rfl

/-- A packet of block 0 is processed at once. -/
theorem Working.receive_packet (working : Working S view ctx m Genuine peers degree held node) {num_blocks : Nat}
    (some_block : 0 < num_blocks) (sender : K) {data : Bytes} {t : σ}
    (ran : P.ingest node.protocol .Data 0 data = .ok (t,.ok true))
    (quiet : ((heard node data t).on_useful P 0 (some sender)).2 = []) :
    node.receive P num_blocks sender .Data (message 0 data) = ((heard node data t).on_useful P 0 (some sender)).1 := by
  obtain ⟨number,payload⟩ := message_number (n := 0) (by decide) data
  have long : ¬(message 0 data).length < 8 := by simp [message,to_be_length]
  have current : 0 = node.state.current_block := by rw [working.state]; rfl
  have processed : node.process P .Data data (some sender) = (heard node data t).on_useful P 0 (some sender) := by
    simp only [Receiver.process,working.state]
    exact node.on_data_useful P (some sender) ran
  have routed : node.receive P num_blocks sender .Data (message 0 data) = node.drain P [(.Data,0,data)] (some sender) := by
    have more : ¬num_blocks ≤ node.decoded_count := by rw [working.count]; omega
    rw [Receiver.receive,if_neg (by simp [working.alive,more]),if_neg long,number,payload]
    simp [Receiver.route,← current]
  rw [routed,Receiver.drain_cons,if_neg (not_not.mpr current),processed,quiet,List.append_nil,Receiver.drain_nil,ite_self]

/-- The receiver completes the block. -/
theorem Working.completes (working : Working S view ctx m Genuine peers degree held node) (coded : Coded P S view)
    (carried : Carried S ctx m chunks Genuine image) {num_blocks : Nat} (some_block : 0 < num_blocks)
    {p : SignedPacket F N Proof} (genuine : Genuine p) (readable : image p.chunk.coefficients ≠ 0)
    (fresh : p.chunk.coefficients ∉ Submodule.span F {x | x ∈ held}) (last : held.length + 1 = N) (sender : K) :
    Reached P 0 (node.receive P num_blocks sender .Data (message 0 p.serialize)) := by
  obtain ⟨t,ran,full,_⟩ := working.ingest coded carried genuine readable fresh
  have complete : P.is_complete t = true := by rw [coded.is_complete]; exact full.mpr last
  have silent : (heard node p.serialize t).should_forward P = false := by
    simp only [Receiver.should_forward,coded.forward_condition]
    simp [complete]
  have finished : (heard node p.serialize t).on_useful P 0 (some sender) = (heard node p.serialize t).finish P 0 := by
    simp only [Receiver.on_useful,silent,Bool.false_eq_true,if_false]
    rw [if_neg (by simp [working.alive]),if_pos (by simpa using complete)]
  obtain ⟨quiet,kept⟩ := finish_still (P := P) (heard node p.serialize t) 0 working.buffer
  rw [working.receive_packet some_block sender ran (by rw [finished]; exact quiet),finished]
  exact ⟨_,t,_,kept _ (by simp),ran,complete⟩

variable (peers) in
/-- The receiver stores a packet and sends chosen mixtures to a few other peers. -/
theorem Working.goes_on [LawfulRandom F] [LawfulSliceRandom] (num_blocks : Nat) (coded : Coded P S view)
    (carried : Carried S ctx m chunks Genuine image) (some_block : 0 < num_blocks) {x : Fin N → F}
    (readable : image x ≠ 0) (fresh : x ∉ Submodule.span F {y | y ∈ held}) (more : held.length + 1 < N) {sender : K}
    {sends : List (K × List F)} (few : sends.length ≤ degree) (nodup : (sends.map Prod.fst).Nodup)
    (others : ∀ entry ∈ sends, entry.1 ∈ peers ∧ entry.1 ≠ sender)
    (long : ∀ entry ∈ sends, entry.2.length = held.length + 1) (nonzero : ∀ entry ∈ sends, ∀ a ∈ entry.2, a ≠ 0) :
    ∃ draws : List Nat, ∀ (node : Receiver σ K) (rest : Rng) (p : SignedPacket F N Proof),
      Working S view ctx m Genuine peers degree held node → Genuine p → p.chunk.coefficients = x →
      node.rng = draws ++ₛ rest →
      Working S view ctx m Genuine peers degree (held ++ [x])
        (node.receive P num_blocks sender .Data (message 0 p.serialize)) ∧
      (node.receive P num_blocks sender .Data (message 0 p.serialize)).rng = rest ∧
      ∃ batch, .forwarded 0 batch ∈
          (node.receive P num_blocks sender .Data (message 0 p.serialize)).log.drop node.log.length ∧
        ∀ entry ∈ sends, ∃ q, (entry.1,message 0 q.serialize) ∈ batch ∧ Genuine q ∧
          q.chunk.coefficients = comb entry.2 (held ++ [x]) := by
  obtain ⟨draws,gives⟩ := forward_given (P := P) (held ++ [x]) coded carried few nodup others (by simp)
    (by simpa using long) nonzero
  refine ⟨draws,fun node rest p working genuine same drawn => ?_⟩
  subst same
  obtain ⟨t,ran,full,stores⟩ := working.ingest coded carried genuine readable fresh
  have incomplete : P.is_complete t = false := by
    rw [coded.is_complete,Bool.eq_false_iff]
    exact fun complete => by have := full.mp complete; omega
  have grown := stores (heard node p.serialize t) rfl working.alive working.state working.buffer working.count working.peers
    working.degree
  obtain ⟨batch,sent,made⟩ := gives (heard node p.serialize t) rest grown drawn
  have loud : (heard node p.serialize t).should_forward P = true := by
    simp only [Receiver.should_forward,coded.forward_condition]
    simp [incomplete]
  have forwarded : (heard node p.serialize t).on_useful P 0 (some sender) =
      ((heard node p.serialize t).forward P 0 (some sender),[]) := by
    simp only [Receiver.on_useful,if_pos loud,sent]
    rw [if_neg (by simp [working.alive]),if_neg (by simp [incomplete])]
  rw [working.receive_packet some_block sender ran (by rw [forwarded]),forwarded,sent]
  refine ⟨stores _ rfl working.alive working.state working.buffer working.count working.peers working.degree,rfl,batch,?_,made⟩
  simp

/-- A receiver between two blocks takes the packets of block 0 after its announcement. -/
theorem announced_working (coded : Coded P S view) {derive : Nat → Context} {s : σ} (idle : Idle view derive m 0 s) (rng : Rng)
    {num_blocks : Nat} (some_block : 0 < num_blocks) (sender : K) {data : Bytes} (long : 8 ≤ data.length) :
    Working S view (derive 0) m Genuine peers degree []
        ((Receiver.new (NodeActor.new s peers degree rng)).receive P num_blocks sender .Announce (message 0 data)) ∧
      ((Receiver.new (NodeActor.new s peers degree rng)).receive P num_blocks sender .Announce (message 0 data)).rng = rng := by
  have seen := coded.announce s 0 data
  rw [CodedState.announce,if_neg (by omega)] at seen
  obtain ⟨⟨t,r⟩,answered,view_same⟩ := map_ok seen
  obtain ⟨next,rfl⟩ := Prod.mk.inj view_same
  obtain ⟨number,payload⟩ := message_number (n := 0) (by decide) data
  have wide : ¬(message 0 data).length < 8 := by simp [message,to_be_length]
  let node : Receiver σ K := Receiver.new (NodeActor.new s peers degree rng)
  have routed : node.receive P num_blocks sender .Announce (message 0 data) = node.drain P [(.Announce,0,data)] (some sender) := by
    have waits : ¬(node.panicked.isSome = true ∨ num_blocks ≤ node.decoded_count) :=
      not_or.mpr ⟨Bool.false_ne_true,Nat.not_le.mpr some_block⟩
    rw [Receiver.receive,if_neg waits,if_neg wide,number,payload]
    rfl
  have heard : node.process P .Announce data (some sender) =
      (({ node.record (.ingest node.protocol .Announce 0 data) with
          protocol := t, state := .Decoding 0, buffer := [] } : Receiver σ K).record (.announced (message 0 data)),[]) :=
    node.on_announce_accepts P answered
  change Working S view (derive 0) m Genuine peers degree [] (node.receive P num_blocks sender .Announce (message 0 data)) ∧
    (node.receive P num_blocks sender .Announce (message 0 data)).rng = rng
  have current : ¬(0 : Nat) ≠ node.state.current_block := not_not.mpr rfl
  rw [routed,Receiver.drain_cons,if_neg current,heard,if_neg (by exact Bool.false_ne_true),List.append_nil,Receiver.drain_nil]
  refine ⟨⟨rfl,rfl,rfl,rfl,rfl,rfl,?_,?_,[],?_,by simp,rfl⟩,rfl⟩
  · exact (congrArg CodedState.m next).trans idle.fixed.1
  · exact (congrArg CodedState.ctx next).trans (by rw [← idle.fixed.2])
  · have empty : (view t).decoder = BlockDecoder.new ∧ (view t).proofs = [] := by
      rw [next]
      exact ⟨idle.decoder,idle.proofs⟩
    change Stored S (derive 0) m [] (view t).decoder (view t).proofs
    rw [empty.1,empty.2]
    exact Stored.new

/-! ### The network -/

/-- The configuration with other outcomes. -/
def drawing (config : Config σ K) (rng : K → Rng) : Config σ K := { config with rng }

/-- Every node is a peer of every other, each sends to `degree` peers, and blocks are
    counted in 64 bits. -/
structure Meshed (config : Config σ K) (degree : Nat) : Prop where
  nodup : ∀ k, (config.peers k).Nodup
  peers : ∀ k j, j ∈ config.peers k ↔ j ≠ k
  degree : ∀ k, config.mesh_degree k = degree
  blocks : ∀ k, 0 < config.num_blocks k
  limited : ∀ k, config.num_blocks k < 2 ^ 64

/-- With some outcomes and in some order, the block is proposed as block 0 and every
    receiver comes to hold all of it. -/
def Decodable (P : Protocol σ) (config : Config σ K) (block : Block) : Prop :=
  ∃ rng actions net, (drawing config rng).start.run P (drawing config rng) actions = some net ∧
    net.blocks[0]? = some block ∧ ∀ k, k ≠ config.source → Reached P 0 (net.receivers k)

section
variable (P S view ctx m Genuine) (config : Config σ K) (degree)

/-- The network is at least as far as the nodes that relay the coefficient vectors. -/
structure Shows (s : Relaying.State K (Fin N → F)) (net : Network σ K) : Prop where
  working : ∀ k, k ≠ config.source → (s.held k).length < N →
    Working S view ctx m Genuine (config.peers k) degree (s.held k) (net.receivers k)
  reached : ∀ k, k ≠ config.source → (s.held k).length = N → Reached P 0 (net.receivers k)
  flying : ∀ a b x, s.flying a b x → b ≠ a ∧ ∃ (i : Nat) (p : SignedPacket F N Proof),
    net.sent[i]? = some ⟨a,some b,.Data,message 0 p.serialize⟩ ∧ Genuine p ∧ p.chunk.coefficients = x

/-- Some outcomes, whatever comes after them, and some actions bring the network this far
    with the block. -/
structure Realizable (block : Block) (s : Relaying.State K (Fin N → F)) : Prop where
  innovative : ∀ k, Innovative (F := F) (s.held k)
  runs : ∃ draws : K → List Nat, ∀ rest : K → Rng, ∃ actions net,
    (drawing config fun k => draws k ++ₛ rest k).start.run P (drawing config fun k => draws k ++ₛ rest k) actions =
      some net ∧
    net.blocks[0]? = some block ∧ Shows P S view ctx m Genuine degree config s net ∧
    ∀ k, k ≠ config.source → (s.held k).length < N → (net.receivers k).rng = rest k

/-- The rules of relaying that the network follows. -/
def rules (image : (Fin N → F) →ₗ[F] W) : Relaying.Rules F K (Fin N → F) W := ⟨N,degree,config.source,image⟩

end

variable {config : Config σ K} {block : Block} {s t : Relaying.State K (Fin N → F)} {net : Network σ K}

theorem run_snoc {start net : Network σ K} {actions : List (Action K)} (ran : start.run P config actions = some net)
    (action : Action K) : start.run P config (actions ++ [action]) = net.step P config action := by
  rw [Network.run] at ran ⊢
  rw [List.foldlM_append,ran]
  simp

theorem deliver_step {net : Network σ K} {k : K} {i : Nat} {e : Envelope K} (found : net.sent[i]? = some e)
    (receives : k ≠ config.source) (reaches : e.Reaches k) :
    net.step P config (.deliver k i) = some (net.deliver P config k e) := by
  simp [Network.step,found,receives,reaches]

/-- A message that reached the network stays there. -/
theorem deliver_sent (net : Network σ K) (k : K) (e : Envelope K) {i : Nat} {e' : Envelope K}
    (found : net.sent[i]? = some e') : (net.deliver P config k e).sent[i]? = some e' :=
  (List.getElem?_append_left (List.getElem?_eq_some_iff.mp found).1).trans found

theorem deliver_elsewhere (net : Network σ K) {k j : K} (e : Envelope K) (apart : j ≠ k) :
    (net.deliver P config k e).receivers j = net.receivers j := by
  simp [Network.deliver,apart]

theorem deliver_here (net : Network σ K) (k : K) (e : Envelope K) :
    (net.deliver P config k e).receivers k =
      (net.receivers k).receive P (config.num_blocks k) e.sender e.channel e.msg := by
  simp [Network.deliver]

/-- A node that takes a vector holds less than all of them. -/
theorem short_of_fresh {held : List (Fin N → F)} (innovative : Innovative (F := F) held) {x : Fin N → F}
    (fresh : x ∉ Submodule.span F {y | y ∈ held}) : held.length < N := by
  have most : held.length ≤ N := by simpa using innovative.length_le
  refine most.lt_of_ne fun full => fresh ?_
  rw [innovative.spans_iff.mpr (by simpa using full)]
  trivial

/-- One node that took a vector brings the network as far as the nodes that relay. -/
theorem Shows.deliver (shows : Shows P S view ctx m Genuine degree config s net) {k : K} {x : Fin N → F}
    {sends : List (K × List F)} {e : Envelope K} {next : Receiver σ K}
    (received : (net.receivers k).receive P (config.num_blocks k) e.sender e.channel e.msg = next)
    (going_on : (s.held k).length + 1 < N →
      Working S view ctx m Genuine (config.peers k) degree (s.held k ++ [x]) next)
    (complete : (s.held k).length + 1 = N → Reached P 0 next)
    (sent : ∀ entry ∈ sends, entry.1 ≠ k ∧ ∃ q, (⟨k,some entry.1,.Data,message 0 q.serialize⟩ : Envelope K) ∈
      (net.deliver P config k e).sent ∧ Genuine q ∧ q.chunk.coefficients = comb entry.2 (s.held k ++ [x])) :
    Shows P S view ctx m Genuine degree config (s.take k x sends) (net.deliver P config k e) := by
  have grown : (s.take k x sends).held k = s.held k ++ [x] := by simp [Relaying.State.take]
  have kept : ∀ j, j ≠ k → (s.take k x sends).held j = s.held j := fun j apart => by simp [Relaying.State.take,apart]
  have count : (s.held k ++ [x]).length = (s.held k).length + 1 := by simp
  refine ⟨fun j node more => ?_,fun j node full => ?_,fun a b y flies => ?_⟩
  · by_cases same : j = k
    · subst same
      rw [grown] at more ⊢
      rw [deliver_here,received]
      exact going_on (count ▸ more)
    · rw [kept j same] at more ⊢
      rw [deliver_elsewhere net e same]
      exact shows.working j node more
  · by_cases same : j = k
    · subst same
      rw [grown] at full
      rw [deliver_here,received]
      exact complete (count ▸ full)
    · rw [kept j same] at full
      rw [deliver_elsewhere net e same]
      exact shows.reached j node full
  · rcases flies with old | ⟨rfl,alphas,listed,rfl⟩
    · obtain ⟨apart,i,p,found,good⟩ := shows.flying a b y old
      exact ⟨apart,i,p,deliver_sent net k e found,good⟩
    · obtain ⟨apart,q,member,good⟩ := sent (b,alphas) listed
      obtain ⟨i,found⟩ := List.getElem?_of_mem member
      exact ⟨apart,i,q,found,good⟩

/-- Outcomes for a node whose vector completes it, or that goes on with the mixtures that were chosen. -/
theorem Shows.take [LawfulRandom F] [LawfulSliceRandom] (coded : Coded P S view)
    (carried : Carried S ctx m chunks Genuine image) (meshed : Meshed config degree) {sender k : K} {x : Fin N → F}
    {sends : List (K × List F)} (receives : k ≠ config.source) (readable : image x ≠ 0)
    (fresh : x ∉ Submodule.span F {y | y ∈ s.held k}) (short : (s.held k).length < N)
    (proper : (rules degree config image).Proper sender k ((s.held k).length + 1) sends) :
    ∃ drawn : List Nat, ∀ (net : Network σ K) (rest : Rng) (p : SignedPacket F N Proof),
      Shows P S view ctx m Genuine degree config s net → (net.receivers k).rng = drawn ++ₛ rest → Genuine p →
      p.chunk.coefficients = x →
      Shows P S view ctx m Genuine degree config (s.take k x sends)
          (net.deliver P config k ⟨sender,some k,.Data,message 0 p.serialize⟩) ∧
        ((s.held k).length + 1 < N →
          ((net.deliver P config k ⟨sender,some k,.Data,message 0 p.serialize⟩).receivers k).rng = rest) := by
  by_cases last : (s.held k).length + 1 = N
  · have silent : sends = [] := by
      by_contra some_send
      have := proper.going_on some_send
      simp only [rules] at this
      omega
    subst silent
    refine ⟨[],fun net rest p shows _ genuine same => ⟨shows.deliver rfl (fun more => by omega) (fun _ => ?_) (by simp),
      fun more => by omega⟩⟩
    subst same
    exact (shows.working k receives short).completes coded carried (meshed.blocks k) genuine readable fresh last sender
  · obtain ⟨drawn,gives⟩ := Working.goes_on (config.peers k) (config.num_blocks k) coded carried
      (meshed.blocks k) readable fresh (by omega) proper.few proper.nodup
      (fun entry member => ⟨(meshed.peers k entry.1).mpr (proper.others entry member).1,(proper.others entry member).2⟩)
      proper.long proper.nonzero
    refine ⟨drawn,fun net rest p shows here genuine same => ?_⟩
    obtain ⟨working,left,batch,emitted,made⟩ := gives (net.receivers k) rest p (shows.working k receives short) genuine same here
    refine ⟨shows.deliver rfl (fun _ => working) (fun full => absurd full last) ?_,fun _ => by rw [deliver_here]; exact left⟩
    intro entry listed
    obtain ⟨q,sent,good⟩ := made entry listed
    exact ⟨(proper.others entry listed).1,q,List.mem_append_right _
      (List.mem_flatMap.mpr ⟨_,emitted,List.mem_map.mpr ⟨_,sent,rfl⟩⟩),good⟩

/-- What can be relayed next, the network can do next. -/
theorem Realizable.step [LawfulRandom F] [LawfulSliceRandom] (coded : Coded P S view)
    (carried : Carried S ctx m chunks Genuine image) (meshed : Meshed config degree)
    (realizable : Realizable P S view ctx m Genuine degree config block s)
    (step : (rules degree config image).Step s t) : Realizable P S view ctx m Genuine degree config block t := by
  obtain ⟨innovative,draws,runs⟩ := realizable
  cases step with
  | @takes sender k x sends receives arrives readable fresh proper =>
    have short := short_of_fresh (innovative k) fresh
    obtain ⟨drawn,gives⟩ := Shows.take coded carried meshed receives readable fresh short proper
    refine ⟨fun j => ?_,Function.update draws k (draws k ++ drawn),fun rest => ?_⟩
    · by_cases same : j = k
      · subst same
        simpa [Relaying.State.take] using (innovative j).snoc fresh
      · simpa [Relaying.State.take,same] using innovative j
    obtain ⟨actions,net,ran,proposed,shows,waits⟩ := runs (Function.update rest k (drawn ++ₛ rest k))
    have same_draws : (fun j => draws j ++ₛ Function.update rest k (drawn ++ₛ rest k) j) =
        fun j => Function.update draws k (draws k ++ drawn) j ++ₛ rest j := by
      funext j
      by_cases same : j = k
      · subst same
        simp only [Function.update_self,Stream'.append_append_stream]
      · simp only [Function.update_of_ne same]
    rw [same_draws] at ran
    obtain ⟨apart,i,p,found,genuine,same⟩ := shows.flying sender k x arrives
    obtain ⟨shows',left⟩ := gives net (rest k) p shows (by rw [waits k receives short,Function.update_self]) genuine same
    refine ⟨actions ++ [.deliver k i],net.deliver P config k ⟨sender,some k,.Data,message 0 p.serialize⟩,?_,proposed,shows',
      fun j node more => ?_⟩
    · rw [run_snoc ran]
      exact deliver_step found receives ⟨apart,.inr rfl⟩
    · by_cases there : j = k
      · subst there
        exact left (by simpa [Relaying.State.take] using more)
      · rw [deliver_elsewhere net _ there,waits j node (by simpa [Relaying.State.take,there] using more),
          Function.update_of_ne there]

/-- Whatever can be relayed, the network can do. -/
theorem Realizable.reaches [LawfulRandom F] [LawfulSliceRandom] (coded : Coded P S view)
    (carried : Carried S ctx m chunks Genuine image) (meshed : Meshed config degree)
    (realizable : Realizable P S view ctx m Genuine degree config block s)
    (reaches : (rules degree config image).Reaches s t) : Realizable P S view ctx m Genuine degree config block t := by
  induction reaches with
  | refl => exact realizable
  | tail _ step ih => exact ih.step coded carried meshed step

/-! ### The opening -/

/-- The network after the proposal: vectors of the proposer are on their way to some nodes. -/
def opening (source : K) (sends : List (K × (Fin N → F))) : Relaying.State K (Fin N → F) :=
  ⟨fun _ => [],fun a b x => a = source ∧ (b,x) ∈ sends⟩

/-- The proposer can send genuine packets with any coefficient vectors without zeros. -/
def Offers (P : Protocol σ) (Genuine : SignedPacket F N Proof → Prop) (s : σ) (block : Block) (degree : Nat) : Prop :=
  ∀ xs : List (Fin N → F), xs.length = degree → (∀ x ∈ xs, ∀ i, x i ≠ 0) →
    ∃ draws : List Nat, ∀ rest, ∃ t announcement packets,
      P.propose s block degree (draws ++ₛ rest) = .ok ((t,⟨announcement,packets.map SignedPacket.serialize⟩),rest) ∧
      8 ≤ announcement.length ∧ List.Forall₂ (fun x p => Genuine p ∧ p.chunk.coefficients = x) xs packets

variable (Genuine config) in
/-- The announcement of block 0 is delivered to nodes that are at their start. -/
theorem announce_each (coded : Coded P S view) {derive : Nat → Context} (ready : Ready view derive m config)
    (meshed : Meshed config degree) {announcement : Bytes} (long : 8 ≤ announcement.length) {ks : List K} (nodup : ks.Nodup)
    (others : ∀ k ∈ ks, k ≠ config.source) (net : Network σ K)
    (sent : net.sent[0]? = some ⟨config.source,none,.Announce,message 0 announcement⟩)
    (starts : ∀ k ∈ ks, net.receivers k =
      Receiver.new (NodeActor.new (config.protocol k) (config.peers k) (config.mesh_degree k) (config.rng k))) :
    ∃ next, net.run P config (ks.map fun k => .deliver k 0) = some next ∧ next.blocks = net.blocks ∧
      (∀ k ∈ ks, Working S view (derive 0) m Genuine (config.peers k) degree [] (next.receivers k) ∧
        (next.receivers k).rng = config.rng k) ∧
      (∀ k, k ∉ ks → next.receivers k = net.receivers k) ∧
      ∀ (i : Nat) e, net.sent[i]? = some e → next.sent[i]? = some e := by
  induction ks generalizing net with
  | nil => exact ⟨net,rfl,rfl,by simp,fun _ _ => rfl,fun _ _ found => found⟩
  | cons k ks ih =>
    obtain ⟨absent,nodup⟩ := List.nodup_cons.mp nodup
    let e : Envelope K := ⟨config.source,none,.Announce,message 0 announcement⟩
    have receives := others k (by simp)
    obtain ⟨next,ran,same,working,waits,kept⟩ := ih nodup (fun j member => others j (List.mem_cons_of_mem k member))
      (net.deliver P config k e) (deliver_sent net k e sent) (by
        intro j member
        have apart : j ≠ k := fun same => absent (same ▸ member)
        rw [deliver_elsewhere net e apart]
        exact starts j (List.mem_cons_of_mem k member))
    refine ⟨next,?_,same,fun j member => ?_,fun j out => ?_,fun i e' found => kept i e' (deliver_sent net k e found)⟩
    · simp only [Network.run,List.map_cons,List.foldlM_cons,deliver_step sent receives ⟨receives,.inl rfl⟩]
      exact ran
    · rcases List.mem_cons.mp member with rfl | later
      · rw [waits j absent,deliver_here,starts j (by simp),meshed.degree]
        exact announced_working coded (ready j) (config.rng j) (meshed.blocks j) config.source long
      · exact working j later
    · obtain ⟨apart,out⟩ := not_or.mp (List.mem_cons.not.mp out)
      rw [waits j out,deliver_elsewhere net e apart]

variable (config) in
/-- The first action, with what the proposer makes of its outcomes. -/
theorem propose_first (some_block : 0 < config.num_blocks config.source) {rng rest : Rng} {t : σ} {proposal : Proposal}
    (generated : generate_random_block config.block_size 0 (config.rng config.source) = (block,rng))
    (proposed : P.propose (config.protocol config.source) block (config.mesh_degree config.source) rng =
      .ok ((t,proposal),rest)) :
    ∃ net, config.start.step P config .propose = some net ∧ net.blocks = [block] ∧ net.receivers = config.start.receivers ∧
      net.sent = ⟨config.source,none,.Announce,message 0 proposal.announcement⟩ ::
        (((SliceRandom.shuffle rest.head (config.peers config.source)).take (config.mesh_degree config.source)).zip
          (proposal.packets.map (message 0))).map fun entry => ⟨config.source,some entry.1,.Data,entry.2⟩ := by
  obtain ⟨proposer,made⟩ : ∃ proposer, propose_block P config.block_size config.start.proposer 0 = .ok (proposer,
      ⟨block,message 0 proposal.announcement,
        ((SliceRandom.shuffle rest.head (config.peers config.source)).take (config.mesh_degree config.source)).zip
          (proposal.packets.map (message 0))⟩) := by
    have all : (config.peers config.source).filter (fun p => decide ((none : Option K) ≠ some p)) =
        config.peers config.source := List.filter_eq_self.mpr (by simp)
    refine ⟨⟨t,config.peers config.source,config.mesh_degree config.source,rest.tail,.Decoding 0,[],false⟩,?_⟩
    simp only [propose_block,between_blocks,Config.start,NodeActor.new,generated,proposed,NodeActor.select_peers,ok_bind,
      pure_eq,gt_iff_lt,lt_self_iff_false,if_false,all]
  have more : config.start.blocks.length < config.num_blocks config.source := some_block
  have first : config.start.blocks.length = 0 := rfl
  refine ⟨⟨proposer,[block],config.start.receivers,_⟩,?_,rfl,rfl,rfl⟩
  simp only [Network.step,Network.propose,if_pos more]
  rw [first,made]
  rfl

/-- Some outcomes of the proposer propose the block and send the vectors. -/
theorem opening_realizable [LawfulSliceRandom] (some_chunk : 0 < N) (coded : Coded P S view) {derive : Nat → Context}
    (ready : Ready view derive m config) (meshed : Meshed config degree)
    (offers : Offers P Genuine (config.protocol config.source) block degree)
    (generated : ∃ rng, (generate_random_block config.block_size 0 rng).1 = block) {sends : List (K × (Fin N → F))}
    (few : sends.length ≤ degree) (nodup : (sends.map Prod.fst).Nodup) (others : ∀ entry ∈ sends, entry.1 ≠ config.source)
    (nonzero : ∀ entry ∈ sends, ∀ i, entry.2 i ≠ 0) :
    Realizable P S view (derive 0) m Genuine degree config block (opening config.source sends) := by
  obtain ⟨rng,rfl⟩ := generated
  obtain ⟨first,generates⟩ := block_again config.block_size 0 rng
  obtain ⟨second,proposes⟩ := offers (sends.map Prod.snd ++ List.replicate (degree - sends.length) 1) (by simp; omega) (by
    intro x member
    rcases List.mem_append.mp member with wanted | filler
    · obtain ⟨entry,listed,rfl⟩ := List.mem_map.mp wanted
      exact nonzero entry listed
    · rw [List.eq_of_mem_replicate filler]
      exact fun _ => one_ne_zero)
  obtain ⟨draw,tail,shuffled⟩ := shuffle_front (sends.map Prod.fst) (config.peers config.source) nodup
    (by
      intro k member
      obtain ⟨entry,listed,rfl⟩ := List.mem_map.mp member
      exact (meshed.peers config.source entry.1).mpr (others entry listed))
  refine ⟨fun _ => .nil,fun k => if k = config.source then first ++ (second ++ [draw]) else [],fun rest => ?_⟩
  obtain ⟨outcomes,drawn⟩ : ∃ outcomes : K → Rng,
      outcomes = fun k => (if k = config.source then first ++ (second ++ [draw]) else []) ++ₛ rest k := ⟨_,rfl⟩
  rw [← drawn]
  have at_source : outcomes config.source = first ++ₛ (second ++ₛ Stream'.cons draw (rest config.source)) := by
    simp [drawn,Stream'.append_append_stream,Stream'.cons_append_stream]
  have elsewhere : ∀ k, k ≠ config.source → outcomes k = rest k := fun k apart => by simp [drawn,apart]
  obtain ⟨t,announcement,packets,proposed,long,given⟩ := proposes (Stream'.cons draw (rest config.source))
  rw [← meshed.degree config.source] at proposed
  obtain ⟨net,stepped,blocks,receivers,sent⟩ := propose_first (drawing config outcomes)
    (meshed.blocks config.source) ((congrArg _ at_source).trans (generates _)) proposed
  obtain ⟨next,ran,same,working,_,kept⟩ := announce_each Genuine (drawing config outcomes) coded ready
    ⟨meshed.nodup,meshed.peers,meshed.degree,meshed.blocks,meshed.limited⟩ long (meshed.nodup config.source)
    (fun k member => (meshed.peers config.source k).mp member) net (by rw [sent]; rfl)
    (fun k _ => by rw [receivers]; rfl)
  refine ⟨.propose :: (config.peers config.source).map fun k => .deliver k 0,next,?_,by rw [same,blocks]; rfl,
    ⟨fun k node _ => (working k ((meshed.peers config.source k).mpr node)).1,?_,?_⟩,?_⟩
  · rw [Network.run,List.foldlM_cons,stepped]
    exact ran
  · intro k _ full
    have empty : (0 : Nat) = N := full
    omega
  · rintro a b x ⟨rfl,listed⟩
    obtain ⟨q,member,genuine,coefficients⟩ := zip_given given (tail.take (degree - (sends.map Prod.fst).length))
      (fun q => message 0 q.serialize) (b,x) listed
    have flies : (⟨config.source,some b,.Data,message 0 q.serialize⟩ : Envelope K) ∈ net.sent := by
      have targets : (SliceRandom.shuffle (Stream'.cons draw (rest config.source)).head (config.peers config.source)).take
          (config.mesh_degree config.source) =
          sends.map Prod.fst ++ tail.take (degree - (sends.map Prod.fst).length) := by
        rw [Stream'.head_cons,shuffled,meshed.degree,List.take_append,List.take_of_length_le (by simpa using few)]
      rw [sent]
      refine List.mem_cons_of_mem _ (List.mem_map.mpr ⟨(b,message 0 q.serialize),?_,rfl⟩)
      rw [← targets] at member
      rw [List.map_map]
      exact member
    obtain ⟨i,found⟩ := List.getElem?_of_mem flies
    exact ⟨others _ listed,i,q,kept i _ found,genuine,coefficients⟩
  · intro k node _
    rw [(working k ((meshed.peers config.source k).mpr node)).2]
    exact elsewhere k node

/-- A network that is far enough has completed every receiver. -/
theorem Realizable.decodable (realizable : Realizable P S view ctx m Genuine degree config block s)
    (complete : ∀ k, k ≠ config.source → Relaying.Spans F (s.held k)) : Decodable P config block := by
  obtain ⟨innovative,draws,runs⟩ := realizable
  obtain ⟨actions,net,ran,proposed,shows,_⟩ := runs fun _ => Stream'.const 0
  refine ⟨_,actions,net,ran,proposed,fun k node => shows.reached k node ?_⟩
  simpa using (innovative k).spans_iff.mp (complete k node)

end

end Rlnc.Schedules
