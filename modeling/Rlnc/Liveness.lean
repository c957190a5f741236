import Rlnc.Broadcast
import Rlnc.Completion
import Rlnc.Counters
import Rlnc.Schedules

/-!
Full blocks reach everyone. A receiver that has decoded a block has sent it to all its peers but the
one that it has it from (`Passing`), if its mesh degree is large enough. So once the messages in
flight are delivered, every receiver that the links lead to from the proposer has decoded every
proposed block (`settled_delivers`).
-/
namespace Rlnc.Liveness
open Rlnc.Panics Rlnc.Wire Rlnc.Packing Rlnc.Draws Rlnc.Blocks Rlnc.Protocols Rlnc.Actor Rlnc.Runs Rlnc.Network
open Rlnc.Amplification (number between_blocks_frame propose_block_frame)
open Rlnc.InOrder (payloads)
open Rlnc.Completion Rlnc.Broadcast
set_option linter.unusedSectionVars false

/-! ### What a run has delivered -/

section
variable {σ K : Type} [DecidableEq K] [SliceRandom] {P : Protocol σ}

/-- The log only grows. -/
def Extends (before after : Receiver σ K) : Prop := ∃ more, after.log = before.log ++ more

theorem Extends.trans {a b c : Receiver σ K} (first : Extends a b) (second : Extends b c) : Extends a c := by
  obtain ⟨more,left⟩ := first
  obtain ⟨further,right⟩ := second
  exact ⟨more ++ further,by rw [right,left,List.append_assoc]⟩

theorem forward_extends (self : Receiver σ K) (n : Nat) (sender : Option K) : Extends self (self.forward P n sender) := by
  rcases self.forward_spec P n sender with ⟨p,_,sent⟩ | ⟨packets,rng,targets,_,sent⟩
  · exact ⟨[],by rw [sent]; simp⟩
  · exact ⟨[_],by rw [sent]; rfl⟩

theorem finish_extends (self : Receiver σ K) (n : Nat) : Extends self (self.finish P n).1 := by
  cases decoded : P.decode self.protocol with
  | error p => exact ⟨[],by rw [self.finish_panics P n decoded]; simp⟩
  | ok result =>
    by_cases room : self.decoded_count + 1 < 2 ^ 64 ∧ n + 1 < 2 ^ 64
    · exact ⟨[_],by rw [self.finish_advances P n decoded room.1 room.2]; rfl⟩
    · obtain ⟨_,stopped⟩ := self.finish_overflows P n decoded (by omega)
      exact ⟨[_],by rw [stopped]; rfl⟩

/-- What is forwarded stays in the log. -/
theorem on_useful_forwards (self : Receiver σ K) (n : Nat) (sender : Option K) :
    Extends (if self.should_forward P then self.forward P n sender else self) (self.on_useful P n sender).1 := by
  unfold Receiver.on_useful
  generalize (if self.should_forward P then self.forward P n sender else self) = node
  have same : Extends node node := ⟨[],by simp⟩
  simp only
  by_cases dead : node.panicked.isSome = true
  · rw [if_pos dead]
    exact same
  rw [if_neg dead]
  by_cases complete : P.is_complete node.protocol = true
  · rw [if_pos complete]
    exact finish_extends node n
  · rw [if_neg complete]
    exact same

theorem on_useful_extends (self : Receiver σ K) (n : Nat) (sender : Option K) : Extends self (self.on_useful P n sender).1 := by
  refine Extends.trans ?_ (on_useful_forwards self n sender)
  by_cases forwards : self.should_forward P = true
  · rw [if_pos forwards]
    exact forward_extends self n sender
  · rw [if_neg forwards]
    exact ⟨[],by simp⟩

theorem process_extends (self : Receiver σ K) (channel : Channel) (data : Bytes) (sender : Option K) :
    Extends self (self.process P channel data sender).1 := by
  cases waiting : self.state with
  | Init n =>
    cases channel with
    | Data => exact ⟨[],by simp [Receiver.process,waiting]⟩
    | Announce =>
      simp only [Receiver.process,waiting]
      cases ran : P.ingest self.protocol .Announce n data with
      | error p => exact ⟨[_],by rw [self.on_announce_panics P ran]; rfl⟩
      | ok result =>
        obtain ⟨t,r⟩ := result
        by_cases accepted : r = .ok true
        · rw [accepted] at ran
          refine ⟨[.ingest self.protocol .Announce n data,.announced (message n data)],?_⟩
          rw [self.on_announce_accepts P ran]
          simp [Receiver.record]
        · exact ⟨[_],by rw [self.on_announce_refuses P ran accepted]; rfl⟩
  | Decoding n =>
    cases channel with
    | Announce => exact ⟨[],by simp [Receiver.process,waiting]⟩
    | Data =>
      simp only [Receiver.process,waiting]
      cases ran : P.ingest self.protocol .Data n data with
      | error p => exact ⟨[_],by rw [self.on_data_panics P sender ran]; rfl⟩
      | ok result =>
        obtain ⟨t,r⟩ := result
        by_cases useful : r = .ok true
        · rw [useful] at ran
          rw [self.on_data_useful P sender ran]
          refine Extends.trans ?_ (on_useful_extends _ n sender)
          exact ⟨[_],rfl⟩
        · exact ⟨[_],by rw [self.on_data_refuses P sender ran useful]; rfl⟩

theorem work_loop_extends (self : Receiver σ K) (work : List Item) (sender : Option K) (fuel : Nat) :
    Extends self (self.work_loop P work sender fuel) := by
  induction fuel generalizing self work sender with
  | zero => exact ⟨[],by simp [Receiver.work_loop]⟩
  | succ fuel ih =>
    cases work with
    | nil => exact ⟨[],by simp [Receiver.work_loop]⟩
    | cons item work =>
      obtain ⟨channel,bn,data⟩ := item
      simp only [Receiver.work_loop]
      by_cases other : bn ≠ self.state.current_block
      · rw [if_pos other]
        exact ih self work sender
      rw [if_neg other]
      by_cases dead : (self.process P channel data sender).1.panicked.isSome = true
      · rw [if_pos dead]
        exact process_extends self channel data sender
      · rw [if_neg dead]
        exact (process_extends self channel data sender).trans (ih _ _ none)

theorem receive_extends (self : Receiver σ K) (num_blocks : Nat) (sender : K) (channel : Channel) (msg : Bytes) :
    Extends self (self.receive P num_blocks sender channel msg) := by
  have same : Extends self self := ⟨[],by simp⟩
  unfold Receiver.receive
  by_cases stopped : self.panicked.isSome ∨ num_blocks ≤ self.decoded_count
  · rw [if_pos stopped]
    exact same
  rw [if_neg stopped]
  by_cases short : msg.length < 8
  · rw [if_pos short]
    exact same
  rw [if_neg short]
  unfold Receiver.route
  by_cases past : of_be (msg.take 8) < self.state.current_block
  · simp only [if_pos past]
    exact same
  by_cases later : of_be (msg.take 8) > self.state.current_block
  · simp only [if_neg past,if_pos later]
    exact same
  · simp only [if_neg past,if_neg later]
    exact work_loop_extends self _ _ _

variable {config : Config σ K} {net : Network σ K} {actions : List (Action K)}

/-- What an action hands to node `k`. -/
def handed_by (sent : List (Envelope K)) (k : K) : Action K → List (K × Channel × Bytes)
  | .propose => []
  | .deliver j i => if j = k then (sent[i]?.map fun e => (e.sender,e.channel,e.msg)).toList else []

/-- The messages that were delivered to node `k`, in their order. -/
def handed (sent : List (Envelope K)) (k : K) (actions : List (Action K)) : List (K × Channel × Bytes) :=
  actions.flatMap (handed_by sent k)

theorem mem_handed {sent : List (Envelope K)} {k : K} {actions : List (Action K)} {message : K × Channel × Bytes} :
    message ∈ handed sent k actions ↔ ∃ i e, .deliver k i ∈ actions ∧ sent[i]? = some e ∧ message = (e.sender,e.channel,e.msg) := by
  simp only [handed,List.mem_flatMap]
  constructor
  · rintro ⟨action,member,inside⟩
    cases action with
    | propose => cases inside
    | deliver j i =>
      simp only [handed_by] at inside
      by_cases here : j = k
      · subst here
        rw [if_pos rfl] at inside
        cases found : sent[i]? with
        | none => simp [found] at inside
        | some e => exact ⟨i,e,member,found,by simpa [found] using inside⟩
      · simp [here] at inside
  · rintro ⟨i,e,member,found,rfl⟩
    exact ⟨_,member,by simp [handed_by,found]⟩

/-- Later messages are not among the delivered ones. -/
theorem handed_append {sent : List (Envelope K)} {k : K} {actions : List (Action K)}
    (valid : ∀ i, .deliver k i ∈ actions → ∃ e, sent[i]? = some e) (more : List (Envelope K)) :
    handed (sent ++ more) k actions = handed sent k actions := by
  refine List.flatMap_congr fun action member => ?_
  cases action with
  | propose => rfl
  | deliver j i =>
    by_cases here : j = k
    · subst here
      obtain ⟨e,found⟩ := valid i member
      simp only [handed_by,List.getElem?_append_left (List.getElem?_eq_some_iff.mp found).1]
    · simp only [handed_by,if_neg here]

/-- Every message in flight was delivered to every receiver that it reaches. -/
def Settled (config : Config σ K) (net : Network σ K) (actions : List (Action K)) : Prop :=
  ∀ i e k, net.sent[i]? = some e → k ≠ config.source → e.Reaches k → .deliver k i ∈ actions

/-- What holds of the messages of a run: they are what the logs say, and each receiver is where the
    delivered ones have brought it. -/
structure Posted (P : Protocol σ) (config : Config σ K) (net : Network σ K) (actions : List (Action K)) : Prop where
  valid : ∀ k i, .deliver k i ∈ actions → ∃ e, net.sent[i]? = some e ∧ e.Reaches k
  receivers : ∀ k, net.receivers k = receive_all P (config.num_blocks k)
    (Receiver.new (NodeActor.new (config.protocol k) (config.peers k) (config.mesh_degree k) (config.rng k)))
    (handed net.sent k actions)
  logged : ∀ e ∈ net.sent, e.sender ≠ config.source → ∃ event ∈ (net.receivers e.sender).log, e ∈ outgoing e.sender event
  sends : ∀ k, ∀ event ∈ (net.receivers k).log, ∀ e ∈ outgoing k event, e ∈ net.sent

theorem Posted.propose (posted : Posted P config net actions) {next : Network σ K} (ran : net.propose P config = some next) :
    Posted P config next (actions ++ [.propose]) := by
  obtain ⟨proposer,proposed,_,_,rfl⟩ := Network.propose_cases ran
  obtain ⟨valid,receivers,logged,sends⟩ := posted
  refine ⟨fun k i member => ?_,fun k => ?_,fun e member relayed => ?_,fun k event listed e emitted => ?_⟩
  · obtain ⟨e,found,reaches⟩ := valid k i (by simpa using member)
    exact ⟨e,(List.getElem?_append_left (List.getElem?_eq_some_iff.mp found).1).trans found,reaches⟩
  · rw [handed,List.flatMap_append,← handed,handed_append fun i member => (valid k i member).imp fun _ => And.left]
    simpa [handed_by] using receivers k
  · rcases List.mem_append.mp member with old | new
    · exact logged e old relayed
    · rcases List.mem_cons.mp new with rfl | packet
      · exact absurd rfl relayed
      · obtain ⟨entry,_,rfl⟩ := List.mem_map.mp packet
        exact absurd rfl relayed
  · exact List.mem_append_left _ (sends k event listed e emitted)

theorem Posted.deliver (posted : Posted P config net actions) {k : K} {i : Nat} {e : Envelope K} (found : net.sent[i]? = some e)
    (reaches : e.Reaches k) : Posted P config (net.deliver P config k e) (actions ++ [.deliver k i]) := by
  obtain ⟨valid,receivers,logged,sends⟩ := posted
  obtain ⟨more,longer⟩ := receive_extends (P := P) (net.receivers k) (config.num_blocks k) e.sender e.channel e.msg
  have here : (net.deliver P config k e).receivers k =
      (net.receivers k).receive P (config.num_blocks k) e.sender e.channel e.msg := by
    simp [Network.deliver]
  have elsewhere : ∀ j, j ≠ k → (net.deliver P config k e).receivers j = net.receivers j := by
    intro j other
    simp [Network.deliver,other]
  have sent : (net.deliver P config k e).sent = net.sent ++ more.flatMap (outgoing k) := by
    simp only [Network.deliver,longer,List.drop_left]
  have kept : ∀ (l : Nat) (e' : Envelope K), net.sent[l]? = some e' → (net.deliver P config k e).sent[l]? = some e' := by
    intro l e' known
    rw [sent]
    exact (List.getElem?_append_left (List.getElem?_eq_some_iff.mp known).1).trans known
  refine ⟨fun j l member => ?_,fun j => ?_,fun e' member relayed => ?_,fun j event listed e' emitted => ?_⟩
  · rcases List.mem_append.mp member with old | new
    · obtain ⟨e',found',reaches'⟩ := valid j l old
      exact ⟨e',kept l e' found',reaches'⟩
    · obtain ⟨rfl,rfl⟩ := Action.deliver.inj (List.mem_singleton.mp new)
      exact ⟨e,kept _ e found,reaches⟩
  · rw [sent,handed,List.flatMap_append,← handed,handed_append fun l member => (valid j l member).imp fun _ => And.left]
    by_cases own : j = k
    · subst own
      have inside := (List.getElem?_eq_some_iff.mp found).1
      rw [here,receivers j,receive_all,receive_all,List.foldl_append]
      simp [handed_by,List.getElem?_append_left inside,found]
    · rw [elsewhere j own]
      simpa [handed_by,Ne.symm own] using receivers j
  · rw [sent] at member
    rcases List.mem_append.mp member with old | new
    · obtain ⟨event,listed,emitted⟩ := logged e' old relayed
      refine ⟨event,?_,emitted⟩
      by_cases own : e'.sender = k
      · rw [own] at listed ⊢
        rw [here,longer]
        exact List.mem_append_left _ listed
      · rw [elsewhere _ own]
        exact listed
    · obtain ⟨event,listed,emitted⟩ := List.mem_flatMap.mp new
      obtain rfl := outgoing_sender emitted
      refine ⟨event,?_,emitted⟩
      rw [here,longer]
      exact List.mem_append_right _ listed
  · rw [sent]
    by_cases own : j = k
    · subst own
      rw [here,longer] at listed
      rcases List.mem_append.mp listed with old | new
      · exact List.mem_append_left _ (sends j event old e' emitted)
      · exact List.mem_append_right _ (List.mem_flatMap.mpr ⟨event,new,emitted⟩)
    · rw [elsewhere j own] at listed
      exact List.mem_append_left _ (sends j event listed e' emitted)

/-- What every step keeps, given the actions so far, holds after the run. -/
theorem run_follows {Inv : Network σ K → List (Action K) → Prop}
    (kept : ∀ net actions action next, Inv net actions → net.step P config action = some next → Inv next (actions ++ [action]))
    {start net : Network σ K} (first : Inv start []) (ran : start.run P config actions = some net) : Inv net actions := by
  induction actions using List.reverseRecOn generalizing net with
  | nil =>
    obtain rfl := Option.some.inj ran
    exact first
  | append_singleton actions action ih =>
    rw [Network.run,List.foldlM_append] at ran
    obtain ⟨middle,before,last⟩ := Option.bind_eq_some_iff.mp ran
    rw [List.foldlM_cons] at last
    obtain ⟨next,stepped,same⟩ := Option.bind_eq_some_iff.mp last
    obtain rfl := Option.some.inj same
    exact kept middle actions action next (ih before) stepped

theorem run_posted (ran : config.start.run P config actions = some net) : Posted P config net actions := by
  refine run_follows (fun net actions action next posted stepped => ?_) ?_ ran
  · cases action with
    | propose => exact posted.propose stepped
    | deliver k i =>
      obtain ⟨_,found,_,reaches,rfl⟩ := Network.deliver_cases stepped
      exact posted.deliver found reaches
  · refine ⟨by simp,fun k => rfl,by simp [Config.start],fun k event listed => ?_⟩
    simp [Config.start,Receiver.new] at listed

/-- What is in flight to a receiver was delivered to it. -/
theorem Settled.arrives (settled : Settled config net actions) {e : Envelope K} (flying : e ∈ net.sent) {k : K}
    (receives : k ≠ config.source) (reaches : e.Reaches k) : (e.sender,e.channel,e.msg) ∈ handed net.sent k actions := by
  obtain ⟨i,found⟩ := List.mem_iff_getElem?.mp flying
  exact mem_handed.mpr ⟨i,e,settled i e k found receives reaches,found,rfl⟩

/-- Each block that was proposed was announced with its length. -/
structure Announced (config : Config σ K) (net : Network σ K) : Prop where
  count : net.blocks.length ≤ config.num_blocks config.source
  sent : ∀ n < net.blocks.length, ∃ payload, ⟨config.source,none,.Announce,message n payload⟩ ∈ net.sent ∧ 8 ≤ payload.length

theorem run_announced (long : ∀ s block count rng s' proposal rest, P.propose s block count rng = .ok ((s',proposal),rest) →
    8 ≤ proposal.announcement.length) (ran : config.start.run P config actions = some net) : Announced config net := by
  refine Network.run_keeps P config (fun net action next announced stepped => ?_) ⟨Nat.zero_le _,by simp [Config.start]⟩ ran
  cases action with
  | propose =>
    obtain ⟨proposer,proposed,more,made,rfl⟩ := Network.propose_cases stepped
    obtain ⟨proposal,_,payloads,_,announcement,_⟩ := propose_block_ok made
    refine ⟨by simpa using more,fun n before => ?_⟩
    by_cases old : n < net.blocks.length
    · obtain ⟨payload,flying,wide⟩ := announced.sent n old
      exact ⟨payload,List.mem_append_left _ flying,wide⟩
    · have new : n = net.blocks.length := by
        rw [List.length_append,List.length_singleton] at before
        omega
      subst new
      refine ⟨proposal.announcement,List.mem_append_right _ ?_,long _ _ _ _ _ _ _ payloads⟩
      rw [announcement]
      exact List.mem_cons_self
  | deliver k i =>
    obtain ⟨_,_,_,_,rfl⟩ := Network.deliver_cases stepped
    refine ⟨announced.count,fun n before => ?_⟩
    obtain ⟨payload,flying,wide⟩ := announced.sent n before
    exact ⟨payload,List.mem_append_left _ flying,wide⟩

end

/-! ### What a receiver passes on -/

/-- Drain the work queue, where the sender of the first message is known. -/
theorem drain_follows {σ K : Type} [DecidableEq K] [SliceRandom] {P : Protocol σ}
    (Inv : Receiver σ K → List Item → Option K → Prop)
    (skip : ∀ self item work sender, Inv self (item :: work) sender → Inv self work sender)
    (step : ∀ self channel bn data work sender, bn = self.state.current_block → Inv self ((channel,bn,data) :: work) sender →
      (self.process P channel data sender).1.panicked = none →
      Inv (self.process P channel data sender).1 (work ++ (self.process P channel data sender).2) none)
    {self : Receiver σ K} {work : List Item} {sender : Option K} (start : Inv self work sender)
    (survives : (self.drain P work sender).panicked = none) : ∃ last, Inv (self.drain P work sender) [] last := by
  induction bound : self.rounds work using Nat.strong_induction_on generalizing self work sender with
  | _ bound ih =>
    cases work with
    | nil => exact ⟨sender,by rw [Receiver.drain_nil]; exact start⟩
    | cons item work =>
      have shorter := self.rounds_skip item work
      obtain ⟨channel,bn,data⟩ := item
      have processed := self.rounds_process P (channel,bn,data) work channel data sender
      rw [Receiver.drain_cons] at survives ⊢
      by_cases current : bn = self.state.current_block
      · rw [if_neg (not_not.mpr current)] at survives ⊢
        by_cases dead : (self.process P channel data sender).1.panicked.isSome = true
        · rw [if_pos dead] at survives
          rw [survives] at dead
          cases dead
        · rw [if_neg dead] at survives ⊢
          exact ih _ (by omega) (step self channel bn data work sender current start (by simpa using dead)) survives rfl
      · rw [if_pos current] at survives ⊢
        exact ih _ (by omega) (skip self _ work sender start) survives rfl

section
variable [FixedCodec UInt64] [BytesCodec] {K : Type} [DecidableEq K] [SliceRandom]

/-- Every peer was sent the block, or has sent it here. -/
def Passed (peers : List K) (past : List (K × Channel × Bytes)) (n : Nat) (log : List (Actor.Event BaselineProtocol K)) : Prop :=
  ∀ b ∈ peers, (∃ batch data block, .forwarded n batch ∈ log ∧ (b,message n data) ∈ batch ∧ Block.decode data = .ok block) ∨
    ∃ msg, (b,.Data,msg) ∈ past ∧ number msg = n

/-- A receiver of full blocks, which has passed on each block that it decoded and no other. -/
structure Passing (peers : List K) (past : List (K × Channel × Bytes)) (node : Receiver BaselineProtocol K) : Prop where
  around : node.peers = peers
  wide : peers.length ≤ node.mesh_degree
  empty : node.protocol.block = none
  unforwarded : node.forwarded = false
  counted : node.decoded_count = node.state.current_block
  passed : ∀ n < node.decoded_count, Passed peers past n node.log
  sends : ∀ n batch, .forwarded n batch ∈ node.log → n < node.decoded_count

variable {peers : List K} {past : List (K × Channel × Bytes)} {node : Receiver BaselineProtocol K}

theorem Passed.logs {n : Nat} {log : List (Actor.Event BaselineProtocol K)} (passed : Passed peers past n log)
    (more : List (Actor.Event BaselineProtocol K)) : Passed peers past n (log ++ more) := by
  intro b listed
  rcases passed b listed with ⟨batch,data,block,sent,inside,read⟩ | came
  · exact .inl ⟨batch,data,block,List.mem_append_left _ sent,inside,read⟩
  · exact .inr came

theorem Passed.hears {n : Nat} {log : List (Actor.Event BaselineProtocol K)} (passed : Passed peers past n log)
    (later : List (K × Channel × Bytes)) : Passed peers (past ++ later) n log := by
  intro b listed
  rcases passed b listed with sent | ⟨msg,came,numbered⟩
  · exact .inl sent
  · exact .inr ⟨msg,List.mem_append_left _ came,numbered⟩

theorem mem_zip_replicate {α β : Type} {x : α} {xs : List α} {count : Nat} (member : x ∈ xs) (few : xs.length ≤ count) (y : β) :
    (x,y) ∈ xs.zip (List.replicate count y) := by
  induction xs generalizing count with
  | nil => cases member
  | cons first xs ih =>
    obtain ⟨count,rfl⟩ : ∃ more, count = more + 1 := ⟨count - 1,by simp at few; omega⟩
    rw [List.replicate_succ,List.zip_cons_cons]
    rcases List.mem_cons.mp member with rfl | inside
    · exact List.mem_cons_self
    · exact List.mem_cons_of_mem _ (ih inside (by simpa using few))

/-- A block that is decoded goes to every peer but the one that sent it. -/
theorem process_passes [LawfulSliceRandom] {n : Nat} (working : node.state = .Decoding n) (empty : node.protocol.block = none)
    (unforwarded : node.forwarded = false) (wide : node.peers.length ≤ node.mesh_degree) {data : Bytes} {block : Block}
    (read : Block.decode data = .ok block) (sender : Option K) :
    ∃ batch, .forwarded n batch ∈ (node.process BaselineProtocol.protocol .Data data sender).1.log ∧
      ∀ b ∈ node.peers, sender ≠ some b → (b,message n data) ∈ batch := by
  have ran : BaselineProtocol.protocol.ingest node.protocol .Data n data =
      .ok ({ node.protocol with block_bytes := some data, block := some block },.ok true) := by
    rcases ingest_data empty n data with ⟨block',read',ran⟩ | ⟨_,unread,_⟩
    · obtain rfl := Except.ok.inj (read.symm.trans read')
      exact ran
    · exact absurd read (unread block)
  simp only [Receiver.process,working]
  rw [node.on_data_useful _ sender ran]
  obtain ⟨heard,named⟩ : ∃ heard : Receiver BaselineProtocol K, heard = { node.record (.ingest node.protocol .Data n data) with
    protocol := { node.protocol with block_bytes := some data, block := some block } } := ⟨_,rfl⟩
  rw [← named]
  have should : heard.should_forward BaselineProtocol.protocol = true := by
    rw [named]
    simp [Receiver.should_forward,BaselineProtocol.protocol,Receiver.record,unforwarded]
  have recoded : BaselineProtocol.protocol.recode heard.protocol heard.mesh_degree heard.rng =
      .ok (List.replicate heard.mesh_degree data,heard.rng) := by
    rw [named]
    rfl
  obtain ⟨more,longer⟩ := on_useful_forwards (P := BaselineProtocol.protocol) heard n sender
  rw [if_pos should,Schedules.forward_sent heard n sender recoded] at longer
  obtain ⟨targets,chosen⟩ : ∃ targets, targets =
    SliceRandom.shuffle heard.rng.head (heard.peers.filter fun p => sender ≠ some p) := ⟨_,rfl⟩
  have shuffled := LawfulSliceRandom.perm heard.rng.head (heard.peers.filter fun p => sender ≠ some p)
  rw [← chosen] at shuffled longer
  have few : targets.length ≤ heard.mesh_degree := by
    rw [shuffled.length_eq]
    refine (List.length_filter_le _ _).trans ?_
    rw [named]
    exact wide
  refine ⟨(targets.take heard.mesh_degree).zip ((List.replicate heard.mesh_degree data).map (message n)),?_,fun b listed other => ?_⟩
  · rw [longer,Receiver.record_log]
    exact List.mem_append_left _ (List.mem_append_right _ (List.mem_singleton.mpr rfl))
  · rw [List.take_of_length_le few,List.map_replicate]
    refine mem_zip_replicate (shuffled.mem_iff.mpr (List.mem_filter.mpr ⟨?_,decide_eq_true other⟩)) few _
    rw [named]
    exact listed

/-- The block of a message that is handed to the protocol. -/
theorem ingest_block {s t : BaselineProtocol} {channel : Channel} {n : Nat} {data : Bytes} {r : Except String Bool}
    (empty : s.block = none) (ran : BaselineProtocol.protocol.ingest s channel n data = .ok (t,r)) :
    channel = .Data ∧ r = .ok true ∧ (∃ block, Block.decode data = .ok block) ∧ t.block.isSome = true ∨
      (channel = .Data → r ≠ .ok true) ∧ t.block = none := by
  cases channel with
  | Announce =>
    refine .inr ⟨(fun other => by cases other),?_⟩
    simp only [BaselineProtocol.protocol,BaselineProtocol.ingest] at ran
    split at ran <;> obtain ⟨rfl,_⟩ := ok_pair ran <;> exact empty
  | Data =>
    rcases ingest_data empty n data with ⟨block,read,took⟩ | ⟨e,_,refused⟩
    · obtain ⟨rfl,rfl⟩ := ok_pair (took.symm.trans ran)
      exact .inl ⟨rfl,rfl,⟨block,read⟩,rfl⟩
    · obtain ⟨rfl,rfl⟩ := ok_pair (refused.symm.trans ran)
      exact .inr ⟨(fun _ useful => by cases useful),empty⟩

/-- The sender of the next message has sent the block that the receiver works on. -/
def Excused (past : List (K × Channel × Bytes)) (n : Nat) (channel : Channel) (sender : Option K) : Prop :=
  ∀ b ∈ sender, channel = .Data → ∃ msg, (b,.Data,msg) ∈ past ∧ number msg = n

/-- Nothing is passed on before it is decoded. -/
theorem Passing.process [LawfulSliceRandom] (passing : Passing peers past node) {channel : Channel} {data : Bytes}
    {sender : Option K} (excused : Excused past node.state.current_block channel sender)
    (goes : (node.process BaselineProtocol.protocol channel data sender).1.panicked = none) :
    Passing peers past (node.process BaselineProtocol.protocol channel data sender).1 := by
  obtain ⟨around,wide,empty,unforwarded,counted,passed,sends⟩ := passing
  have did : Counters.Did BaselineProtocol.protocol node channel data _ _ := Counters.process_did channel data sender
  have passes : ∀ n, node.state = .Decoding n → channel = .Data → ∀ block, Block.decode data = .ok block →
      ∃ batch, .forwarded n batch ∈ (node.process BaselineProtocol.protocol channel data sender).1.log ∧
        ∀ b ∈ peers, sender ≠ some b → (b,message n data) ∈ batch := by
    rintro n working rfl block read
    rw [← around] at wide ⊢
    exact process_passes working empty unforwarded wide read sender
  generalize node.process BaselineProtocol.protocol channel data sender = after at goes did passes ⊢
  cases did with
  | stops dead =>
    rw [goes] at dead
    cases dead
  | ignores late same added =>
    rw [same]
    exact ⟨around,wide,empty,unforwarded,counted,passed,sends⟩
  | holds n packet waiting same added =>
    rw [same]
    exact ⟨around,wide,empty,unforwarded,counted,passed,sends⟩
  | refuses n t r ran useless same added =>
    rw [same]
    have kept : t.block = none := by
      rcases ingest_block empty ran with ⟨_,useful,_⟩ | ⟨_,kept⟩
      · exact absurd useful useless
      · exact kept
    refine ⟨around,wide,kept,unforwarded,counted,fun k before => (passed k before).logs [_],fun k batch member => ?_⟩
    rcases List.mem_append.mp member with old | new
    · exact sends k batch old
    · cases List.mem_singleton.mp new
  | opens n t announcement waiting ran same added =>
    rw [same]
    have kept : t.block = none := by
      rcases ingest_block empty ran with ⟨data_message,_⟩ | ⟨_,kept⟩
      · cases data_message
      · exact kept
    refine ⟨around,wide,kept,unforwarded,?_,fun k before => (passed k before).logs _,fun k batch member => ?_⟩
    · rw [counted,waiting]
      rfl
    · rcases List.mem_append.mp member with old | new
      · exact sends k batch old
      · simp at new
  | takes n t sent forwarded rng packet working ran batch lacking same added =>
    rcases ingest_block empty ran with ⟨_,_,_,full⟩ | ⟨refused,_⟩
    · rw [BaselineProtocol.protocol] at lacking
      simp only [full] at lacking
      cases lacking
    · exact absurd rfl (refused rfl)
  | closes n t u block sent rng packet working ran batch silent complete decoded same added =>
    subst packet
    have numbered : node.decoded_count = n := by rw [counted,working]; rfl
    obtain ⟨received,read⟩ : ∃ received, Block.decode data = .ok received := by
      rcases ingest_block empty ran with ⟨_,_,read,_⟩ | ⟨refused,_⟩
      · exact read
      · exact absurd rfl (refused rfl)
    obtain ⟨packets,listed,everyone⟩ := passes n working rfl received read
    rw [same] at listed ⊢
    refine ⟨around,wide,rfl,rfl,?_,fun k before => ?_,fun k entries member => ?_⟩
    · rw [numbered]
      rfl
    · by_cases earlier : k < node.decoded_count
      · exact (passed k earlier).logs _
      · have this_block : k = n := by simp only at before; omega
        subst this_block
        intro b peer
        by_cases own : sender = some b
        · rw [working] at excused
          exact .inr (excused b own rfl)
        · exact .inl ⟨packets,data,received,listed,everyone b peer own,read⟩
    · rcases List.mem_append.mp member with old | new
      · exact (sends k entries old).trans (Nat.lt_succ_self _)
      · have forwarded : .forwarded k entries ∈ sent := by simpa using new
        obtain rfl | ⟨entries',rfl,_⟩ := batch
        · cases forwarded
        · obtain ⟨rfl,_⟩ := Actor.Event.forwarded.inj (List.mem_singleton.mp forwarded)
          rw [numbered]
          exact Nat.lt_succ_self _

theorem Passing.hears (passing : Passing peers past node) (later : List (K × Channel × Bytes)) :
    Passing peers (past ++ later) node :=
  { passing with passed := fun n before => (passing.passed n before).hears later }

theorem Passing.receive [LawfulSliceRandom] (passing : Passing peers past node) (num_blocks : Nat) (sender : K) (channel : Channel)
    (msg : Bytes) (survives : (node.receive BaselineProtocol.protocol num_blocks sender channel msg).panicked = none) :
    Passing peers (past ++ [(sender,channel,msg)]) (node.receive BaselineProtocol.protocol num_blocks sender channel msg) := by
  have heard := passing.hears [(sender,channel,msg)]
  unfold Receiver.receive at survives ⊢
  by_cases stopped : node.panicked.isSome ∨ num_blocks ≤ node.decoded_count
  · rw [if_pos stopped]
    exact heard
  rw [if_neg stopped] at survives ⊢
  by_cases short : msg.length < 8
  · rw [if_pos short]
    exact heard
  rw [if_neg short] at survives ⊢
  unfold Receiver.route at survives ⊢
  by_cases past_block : of_be (msg.take 8) < node.state.current_block
  · simp only [if_pos past_block]
    exact heard
  by_cases later : of_be (msg.take 8) > node.state.current_block
  · simp only [if_neg past_block,if_pos later]
    exact ⟨heard.around,heard.wide,heard.empty,heard.unforwarded,heard.counted,heard.passed,heard.sends⟩
  · simp only [if_neg past_block,if_neg later] at survives ⊢
    obtain ⟨_,kept,_⟩ := drain_follows
      (fun node work sender' => Passing peers (past ++ [(sender,channel,msg)]) node ∧ ∀ item ∈ work,
        Excused (past ++ [(sender,channel,msg)]) item.2.1 item.1 sender')
      (fun self item work sender' both => ⟨both.1,fun other listed => both.2 other (List.mem_cons_of_mem _ listed)⟩)
      (fun self channel' bn data work sender' current both goes => by
        subst current
        exact ⟨both.1.process (both.2 _ List.mem_cons_self) goes,fun item _ b own => by cases own⟩)
      ⟨heard,fun item listed => by
        obtain rfl := List.mem_singleton.mp listed
        rintro b own rfl
        obtain rfl := Option.some.inj own
        exact ⟨msg,List.mem_append_right _ (List.mem_singleton.mpr rfl),rfl⟩⟩ survives
    exact kept

theorem Passing.receive_all [LawfulSliceRandom] (passing : Passing peers past node) (num_blocks : Nat)
    (messages : List (K × Channel × Bytes))
    (survives : (receive_all BaselineProtocol.protocol num_blocks node messages).panicked = none) :
    Passing peers (past ++ messages) (receive_all BaselineProtocol.protocol num_blocks node messages) := by
  induction messages generalizing node past with
  | nil =>
    rw [List.append_nil]
    exact passing
  | cons message messages ih =>
    obtain ⟨sender,channel,msg⟩ := message
    have ran : receive_all BaselineProtocol.protocol num_blocks node ((sender,channel,msg) :: messages) =
        receive_all BaselineProtocol.protocol num_blocks
          (node.receive BaselineProtocol.protocol num_blocks sender channel msg) messages := rfl
    rw [ran] at survives ⊢
    have goes : (node.receive BaselineProtocol.protocol num_blocks sender channel msg).panicked = none := by
      by_contra dead
      have stays : receive_all BaselineProtocol.protocol num_blocks
          (node.receive BaselineProtocol.protocol num_blocks sender channel msg) messages = _ :=
        receive_all_stopped (.inl (Option.isSome_iff_ne_none.mpr dead)) messages
      rw [stays] at survives
      exact dead survives
    have kept := ih (passing.receive num_blocks sender channel msg goes) survives
    rwa [List.append_assoc] at kept

/-- A receiver that starts has passed on nothing. -/
theorem passing_new (peers : List K) {degree : Nat} (wide : peers.length ≤ degree) (rng : Rng) :
    Passing peers [] (Receiver.new (NodeActor.new BaselineProtocol.new peers degree rng)) :=
  ⟨rfl,wide,rfl,rfl,rfl,fun _ before => absurd before (Nat.not_lt_zero _),fun _ _ member => by cases member⟩

/-! ### What the proposer sends -/

/-- The proposer sends a block to all its peers. -/
theorem propose_everyone [LawfulSliceRandom] {block_size block_num : Nat} {self next : NodeActor BaselineProtocol K}
    {sent : Proposed K} (wide : self.peers.length ≤ self.mesh_degree)
    (ran : propose_block BaselineProtocol.protocol block_size self block_num = .ok (next,sent)) :
    ∀ b ∈ self.peers, (b,message block_num sent.block.serialize) ∈ sent.packets := by
  obtain ⟨degree,peers⟩ := between_blocks_frame BaselineProtocol.protocol self block_num
  simp only [propose_block,bind_ok] at ran
  obtain ⟨⟨⟨protocol,proposal⟩,rest⟩,made,ran⟩ := ran
  obtain ⟨result,rfl⟩ := ok_pair made
  obtain ⟨rfl,rfl⟩ := Prod.mk.inj result
  simp only [NodeActor.select_peers,pure_eq,Except.ok.injEq,Prod.mk.injEq] at ran
  obtain ⟨rfl,rfl⟩ := ran
  intro b listed
  have all : self.peers.filter (fun p => decide ((none : Option K) ≠ some p)) = self.peers :=
    List.filter_eq_self.mpr fun p _ => by simp
  simp only [degree,peers,all,List.map_replicate]
  generalize (generate_random_block block_size block_num (between_blocks BaselineProtocol.protocol self block_num).rng).2.head = draw
  have shuffled := LawfulSliceRandom.perm draw self.peers
  have few : (SliceRandom.shuffle draw self.peers).length ≤ self.mesh_degree := shuffled.length_eq.trans_le wide
  rw [List.take_of_length_le few]
  exact mem_zip_replicate (shuffled.mem_iff.mpr listed) few _

/-- Each proposed block was sent to all peers of the proposer. -/
structure Published (config : Config BaselineProtocol K) (net : Network BaselineProtocol K) : Prop where
  degree : net.proposer.mesh_degree = config.mesh_degree config.source
  peers : net.proposer.peers = config.peers config.source
  sent : ∀ n block, net.blocks[n]? = some block → ∀ b ∈ config.peers config.source,
    ⟨config.source,some b,.Data,message n block.serialize⟩ ∈ net.sent

variable {config : Config BaselineProtocol K} {net : Network BaselineProtocol K}

theorem Published.propose [LawfulSliceRandom] (wide : (config.peers config.source).length ≤ config.mesh_degree config.source)
    (published : Published config net) {next : Network BaselineProtocol K}
    (ran : net.propose BaselineProtocol.protocol config = some next) : Published config next := by
  obtain ⟨proposer,proposed,_,made,rfl⟩ := Network.propose_cases ran
  obtain ⟨degree,peers,sent⟩ := published
  obtain ⟨degree',peers'⟩ := propose_block_frame made
  have everyone := propose_everyone (by rw [degree,peers]; exact wide) made
  refine ⟨degree'.trans degree,peers'.trans peers,fun n block found b listed => ?_⟩
  by_cases old : n < net.blocks.length
  · rw [List.getElem?_append_left old] at found
    exact List.mem_append_left _ (sent n block found b listed)
  · have inside := (List.getElem?_eq_some_iff.mp found).1
    have new : n = net.blocks.length := by
      rw [List.length_append,List.length_singleton] at inside
      omega
    subst new
    rw [List.getElem?_append_right le_rfl,Nat.sub_self] at found
    obtain rfl := Option.some.inj found
    rw [← peers] at listed
    exact List.mem_append_right _ (List.mem_cons_of_mem _ (List.mem_map.mpr ⟨_,everyone b listed,rfl⟩))

theorem run_published [LawfulSliceRandom] (wide : (config.peers config.source).length ≤ config.mesh_degree config.source)
    {actions : List (Action K)} (ran : config.start.run BaselineProtocol.protocol config actions = some net) :
    Published config net := by
  refine Network.run_keeps BaselineProtocol.protocol config (fun net action next published stepped => ?_) ?_ ran
  · cases action with
    | propose => exact published.propose wide stepped
    | deliver k i =>
      obtain ⟨_,_,_,_,rfl⟩ := Network.deliver_cases stepped
      exact ⟨published.degree,published.peers,fun n block found b listed =>
        List.mem_append_left _ (published.sent n block found b listed)⟩
  · exact ⟨rfl,rfl,by simp [Config.start]⟩

/-! ### Everyone is reached -/

theorem mem_payloads {channel : Channel} {n : Nat} {data : Bytes} {items : List Item} :
    data ∈ payloads channel n items ↔ (channel,n,data) ∈ items := by
  simp only [payloads,List.mem_map,List.mem_filter,decide_eq_true_eq]
  constructor
  · rintro ⟨⟨_,_,_⟩,⟨listed,rfl,rfl⟩,rfl⟩
    exact listed
  · exact fun listed => ⟨_,⟨listed,rfl,rfl⟩,rfl⟩

theorem mem_arrived {messages : List (K × Channel × Bytes)} {sender : K} {channel : Channel} {n : Nat} (small : n < 2 ^ 64)
    {data : Bytes} (came : (sender,channel,message n data) ∈ messages) : (channel,n,data) ∈ arrived messages := by
  obtain ⟨first,rest⟩ := message_number small data
  have long : ¬(message n data).length < 8 := by simp [message,to_be_length]
  rw [arrived,List.mem_map]
  refine ⟨(some sender,channel,n,data),List.mem_filterMap.mpr ⟨_,came,?_⟩,rfl⟩
  rw [cut,if_neg long,first,rest]

/-- What is enough for a receiver to decode block `n` after those before it. -/
abbrev Enough (items : List Item) (n : Nat) : Prop :=
  Solvable (fun _ datas => ∃ data ∈ datas, 8 ≤ data.length) (fun _ datas => ∃ data ∈ datas, ∃ block, Block.decode data = .ok block)
    items n

variable {actions : List (Action K)}

/-- A receiver has decoded as many blocks as what was delivered to it is enough for. -/
theorem Posted.counts (posted : Posted BaselineProtocol.protocol config net actions)
    (fresh : ∀ k, config.protocol k = BaselineProtocol.new) {k : K} (alive : (net.receivers k).panicked = none) {j : Nat}
    (inside : j ≤ config.num_blocks k) :
    j ≤ (net.receivers k).decoded_count ↔ ∀ n < j, Enough (arrived (handed net.sent k actions)) n := by
  have ran := posted.receivers k
  rw [ran] at alive ⊢
  refine baseline_measured.receive_all ?_ _ _ _ alive inside
  rw [fresh k]
  rfl

/-- A receiver has passed on what it decoded. -/
theorem Posted.passing [LawfulSliceRandom] (posted : Posted BaselineProtocol.protocol config net actions)
    (fresh : ∀ k, config.protocol k = BaselineProtocol.new) (wide : ∀ k, (config.peers k).length ≤ config.mesh_degree k) {k : K}
    (alive : (net.receivers k).panicked = none) :
    Passing (config.peers k) (handed net.sent k actions) (net.receivers k) := by
  have ran := posted.receivers k
  rw [ran] at alive ⊢
  rw [fresh k] at alive ⊢
  have kept := (passing_new (config.peers k) (wide k) (config.rng k)).receive_all (config.num_blocks k) (handed net.sent k actions)
    alive
  rwa [List.nil_append] at kept

variable [RangedBlockCodec]

theorem decode_written {block : Block} (small : block.transactions.length ≤ MAX_TRANSACTIONS_BYTES) :
    Block.decode block.serialize = .ok block := by
  have read := Block.read_back block small []
  rw [List.append_nil] at read
  have whole : Block.read_cfg.run block.serialize = .ok (block,[]) := read
  simp only [Block.decode,whole]

/-- Who sends data messages of a block has decoded it. -/
theorem Posted.decoded [LawfulSliceRandom] (posted : Posted BaselineProtocol.protocol config net actions)
    (broadcasts : Broadcasts config net) (limited : config.num_blocks config.source < 2 ^ 64)
    (fresh : ∀ k, config.protocol k = BaselineProtocol.new) (wide : ∀ k, (config.peers k).length ≤ config.mesh_degree k)
    {e : Envelope K} (flying : e ∈ net.sent) (data_message : e.channel = .Data) (relayed : e.sender ≠ config.source) :
    number e.msg < (net.receivers e.sender).decoded_count := by
  have passing := posted.passing fresh wide (broadcasts.alive limited e.sender)
  obtain ⟨event,listed,emitted⟩ := posted.logged e flying relayed
  have known := (broadcasts.receivers e.sender).logged event listed
  cases event with
  | ingest s channel n data => cases emitted
  | decoded n block => cases emitted
  | announced msg =>
    rw [List.mem_singleton.mp emitted] at data_message
    cases data_message
  | forwarded n batch =>
    obtain ⟨entry,inside,same⟩ := List.mem_map.mp emitted
    obtain ⟨data,block,written,_,block_known⟩ := known entry inside
    have bound := broadcasts.number limited block_known
    have numbered : number e.msg = n := by
      rw [← same,written]
      exact (message_number (by omega) data).1
    rw [numbered]
    exact passing.sends n batch listed

/-- The nodes that the links lead to from the proposer. -/
def Linked (config : Config BaselineProtocol K) (k : K) : Prop :=
  Relation.ReflTransGen (fun a b => b ∈ config.peers a) config.source k

/-- A linked receiver has decoded every block that was proposed. -/
theorem settled_counts [LawfulSliceRandom] (fits : config.block_size ≤ MAX_TRANSACTIONS_BYTES)
    (limited : config.num_blocks config.source < 2 ^ 64) (fresh : ∀ k, config.protocol k = BaselineProtocol.new)
    (wide : ∀ k, (config.peers k).length ≤ config.mesh_degree k)
    (waits : ∀ k, config.num_blocks config.source ≤ config.num_blocks k)
    (ran : config.start.run BaselineProtocol.protocol config actions = some net) (settled : Settled config net actions)
    {n : Nat} (proposed : n < net.blocks.length) {k : K} (linked : Linked config k) (receives : k ≠ config.source) :
    n < (net.receivers k).decoded_count := by
  have writable : config.block_size < 2 ^ 32 := fits.trans_lt (by decide)
  have broadcasts := run_relayed writable limited fresh ran
  have alive := broadcasts.alive limited
  have posted := run_posted ran
  have published := run_published (wide config.source) ran
  have announcements := run_announced (P := BaselineProtocol.protocol) (fun _ _ _ _ _ _ _ payloads => by
    obtain ⟨result,_⟩ := ok_pair payloads
    obtain ⟨_,rfl⟩ := Prod.mk.inj result
    exact (to_be_length 8 _).ge) ran
  have room := broadcasts.count
  induction n using Nat.strong_induction_on generalizing k with
  | _ n earlier =>
    induction linked with
    | refl => exact absurd rfl receives
    | @tail a b linked link ih =>
      have inside : n + 1 ≤ config.num_blocks b := (by omega : n + 1 ≤ _).trans (waits b)
      have announced : ∀ j ≤ n, ∃ payload ∈ payloads .Announce j (arrived (handed net.sent b actions)), 8 ≤ payload.length := by
        intro j before
        obtain ⟨payload,flying,long⟩ := announcements.sent j (by omega)
        exact ⟨payload,mem_payloads.mpr (mem_arrived (by omega) (settled.arrives flying receives ⟨receives,.inl rfl⟩)),long⟩
      by_contra lacks
      refine lacks ((posted.counts fresh (alive b) inside).mpr fun j before => ⟨announced j (by omega),?_⟩)
      by_cases last : j < n
      · have there := earlier j last (by omega) (linked.tail link) receives
        exact ((posted.counts fresh (alive b) (by omega)).mp there j (Nat.lt_succ_self j)).2
      · obtain rfl : j = n := by omega
        by_cases first : a = config.source
        · subst first
          obtain ⟨block,found⟩ : ∃ block, net.blocks[j]? = some block := ⟨_,List.getElem?_eq_getElem proposed⟩
          have small := (broadcasts.sizes block (List.mem_of_getElem? found)).trans_le fits
          have came := settled.arrives (published.sent j block found b link) receives ⟨receives,.inr rfl⟩
          exact ⟨block.serialize,mem_payloads.mpr (mem_arrived (by omega) came),block,decode_written small⟩
        · have passing := posted.passing fresh wide (alive a)
          rcases passing.passed j (ih first) b link with ⟨batch,data,block,listed,inside,read⟩ | ⟨msg,came,numbered⟩
          · have flying := posted.sends a _ listed _ (List.mem_map.mpr ⟨_,inside,rfl⟩)
            by_cases own : b = a
            · rw [own] at lacks
              exact absurd (ih first) lacks
            · have came := settled.arrives flying receives ⟨own,.inr rfl⟩
              exact ⟨data,mem_payloads.mpr (mem_arrived (by omega) came),block,read⟩
          · obtain ⟨i,e,_,found,same⟩ := mem_handed.mp came
            obtain ⟨rfl,data_message,rfl⟩ : b = e.sender ∧ .Data = e.channel ∧ msg = e.msg := by simpa using same
            have sent := posted.decoded broadcasts limited fresh wide (List.mem_of_getElem? found) data_message.symm receives
            rw [numbered] at sent
            exact absurd sent lacks

/-- If each node may forward to all its peers, then once the messages in flight are delivered, in
    whatever order, every receiver that the links lead to has decoded exactly the proposed blocks. -/
theorem settled_delivers [LawfulSliceRandom] (fits : config.block_size ≤ MAX_TRANSACTIONS_BYTES)
    (limited : config.num_blocks config.source < 2 ^ 64) (fresh : ∀ k, config.protocol k = BaselineProtocol.new)
    (wide : ∀ k, (config.peers k).length ≤ config.mesh_degree k)
    (waits : ∀ k, config.num_blocks config.source ≤ config.num_blocks k)
    (ran : config.start.run BaselineProtocol.protocol config actions = some net) (settled : Settled config net actions)
    {k : K} (linked : Linked config k) (receives : k ≠ config.source) :
    (net.receivers k).panicked = none ∧ decodes (net.receivers k).log = (List.range net.blocks.length).zip net.blocks := by
  have agreed := (run_relayed (fits.trans_lt (by decide)) limited fresh ran).agreed limited
  refine ⟨agreed.alive k,agreed.decoded_all ?_⟩
  by_contra fewer
  have next := settled_counts fits limited fresh wide waits ran settled (not_le.mp fewer) linked receives
  exact lt_irrefl _ next

end

end Rlnc.Liveness
