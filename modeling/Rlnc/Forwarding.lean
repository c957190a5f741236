import Rlnc.Flooding
import Rlnc.Runs

/-!
When a node forwards. The node actor and the event loop each ask after a packet whether
to forward it; `decisions` runs such a question over what becomes of a sequence of packets
at one node (`Response`). A node of the event loop forwards as `engine_decides` says, whatever
happens at the other nodes (`observe_decides`), and a receiver as `actor_decides` says
(`forwardings_decide`).
-/
namespace Rlnc.Forwarding
open Rlnc.Panics Rlnc.Wire Rlnc.Draws Rlnc.Blocks Rlnc.Protocols Rlnc.Strategies Rlnc.Engine Rlnc.Events Rlnc.Flooding
open Rlnc.Actor Rlnc.Runs
set_option linter.unusedSectionVars false

/-- What becomes of a packet: it is refused, or it is taken, raises the rank or not, and
    the node can then decode or not. -/
inductive Response
  | refused
  | taken (useful complete : Bool)
deriving DecidableEq, Repr

/-- `should_forward` of the event loop. -/
def engine_decides (condition : ForwardCondition) (forwarded useful complete : Bool) : Bool :=
  match condition with
  | .AfterDecode => complete
  | .OneShot => useful && !forwarded
  | .UntilDecode => useful

/-- `should_forward` of the actor, which asks after useful packets only. -/
def actor_decides (condition : ForwardCondition) (forwarded useful complete : Bool) : Bool :=
  useful && match condition with
  | .AfterDecode => complete && !forwarded
  | .UntilDecode => !complete
  | .OneShot => !forwarded

/-- The decisions over a sequence, the last one where the node is done. -/
def decisions (decides : Bool → Bool → Bool → Bool) (done : Bool → Bool → Bool) : Bool → List Response → List Bool
  | _, [] => []
  | forwarded, .refused :: rest => false :: decisions decides done forwarded rest
  | forwarded, .taken useful complete :: rest =>
    let sends := decides forwarded useful complete
    sends :: if done useful complete then rest.map fun _ => false else decisions decides done (forwarded || sends) rest

/-- A node of the event loop is done when it can decode. -/
abbrev engine_decisions (condition : ForwardCondition) : Bool → List Response → List Bool :=
  decisions (engine_decides condition) (fun _ complete => complete)

/-- A receiver is done when a useful packet completes the block. -/
abbrev actor_decisions (condition : ForwardCondition) : Bool → List Response → List Bool :=
  decisions (actor_decides condition) (fun useful complete => useful && complete)

/-! ### Where the two agree -/

/-- The first packet after which the node can decode is useful. -/
def Proper : List Response → Prop
  | [] => True
  | .taken useful true :: _ => useful = true
  | _ :: rest => Proper rest

/-- Some packet makes the node able to decode. -/
def completes : List Response → Bool
  | [] => false
  | .taken _ true :: _ => true
  | _ :: rest => completes rest

section
variable {τ NodeState Packet : Type} (S : Strategy τ NodeState Packet)

/-- What becomes of packets at a node, one after the other. -/
def responses (params : τ) : NodeState → List Packet → List Response
  | _, [] => []
  | state, packet :: packets =>
    match S.receive params state packet with
    | .error _ => .refused :: responses params state packets
    | .ok (state,.error _) => .refused :: responses params state packets
    | .ok (state,.ok useful) => .taken useful (S.can_decode params state) :: responses params state packets

theorem responses_length (params : τ) (state : NodeState) (packets : List Packet) :
    (responses S params state packets).length = packets.length := by
  induction packets generalizing state with
  | nil => rfl
  | cons packet packets ih =>
    simp only [responses]
    split <;> simp [ih]

variable [EventHeap]

/-- The packets that reach node `v` in at most so many events of the loop, and whether the
    node forwards at each. -/
def observe (v : Nat) : Nat → Simulation τ NodeState Packet → Rust (List (Packet × Bool))
  | 0, _ => .ok []
  | count + 1, self =>
    match EventHeap.pop self.event_queue with
    | none => .ok []
    | some (event,rest) => do
      let forwards ← forwards_at S { self with event_queue := rest } event
      let self ← Simulation.process S { self with event_queue := rest } event
      let later ← observe v count self
      return if event.to_node = v then (event.packet,forwards) :: later else later

/-- The node has not decoded; what it holds, and whether it has forwarded. -/
structure Waits (v : Nat) (params : τ) (state : NodeState) (forwarded : Bool) (sim : Simulation τ NodeState Packet) : Prop where
  params : sim.mechanism.strategy = params
  state : sim.states[v]? = some state
  undecoded : sim.decode_times[v]? = some none
  forwarded : sim.has_forwarded[v]? = some forwarded

variable {S} [LawfulEventHeap] {sim sim' : Simulation τ NodeState Packet} {event : Event Packet} {v : Nat} {params : τ}
  {state : NodeState} {forwarded : Bool}

/-- What happens at other nodes leaves a node alone. -/
theorem handled_elsewhere (handled : Handled S sim event sim') (elsewhere : event.to_node ≠ v) :
    sim'.mechanism = sim.mechanism ∧ sim'.states[v]? = sim.states[v]? ∧ sim'.decode_times[v]? = sim.decode_times[v]? ∧
      sim'.has_forwarded[v]? = sim.has_forwarded[v]? := by
  cases handled with
  | skipped time known same => rw [same]; exact ⟨rfl,rfl,rfl,rfl⟩
  | refused state state' e waits found received changed =>
    rw [changed]
    exact ⟨rfl,List.getElem?_set_ne elsewhere,rfl,rfl⟩
  | taken state state' useful forwards links waits found received changes =>
    refine ⟨changes.mechanism,?_,?_,?_⟩
    · rw [changes.states,List.getElem?_set_ne elsewhere]
    · rw [changes.decode_times]
      split
      · rw [List.getElem?_set_ne elsewhere]
      · rfl
    · rw [changes.has_forwarded]
      split
      · rw [List.getElem?_set_ne elsewhere]
      · rfl

/-- A node that has decoded does not forward. -/
theorem observe_decoded {count : Nat} {steps : List (Packet × Bool)} {time : Duration}
    (decoded : sim.decode_times[v]? = some (some time)) (ran : observe S v count sim = .ok steps) :
    ∀ step ∈ steps, step.2 = false := by
  induction count generalizing sim steps with
  | zero =>
    obtain rfl : [] = steps := Except.ok.inj ran
    simp
  | succ count ih =>
    cases popped : EventHeap.pop sim.event_queue with
    | none =>
      simp only [observe,popped] at ran
      obtain rfl : [] = steps := Except.ok.inj ran
      simp
    | some next =>
      obtain ⟨event,rest⟩ := next
      simp only [observe,popped,bind_ok] at ran
      obtain ⟨forwards,asked,after,processed,later,observed,same⟩ := ran
      obtain rfl := Except.ok.inj same
      have handled := process_ok processed
      have still : after.decode_times[v]? = some (some time) := by
        by_cases here : event.to_node = v
        · subst here
          cases handled with
          | skipped _ _ same => rw [same]; exact decoded
          | refused _ _ _ waits _ _ _ => cases waits.symm.trans decoded
          | taken _ _ _ _ _ waits _ _ _ => cases waits.symm.trans decoded
        · exact (handled_elsewhere handled here).2.2.1.trans decoded
      have others := ih still observed
      split
      · rename_i here
        subst here
        have skipped : forwards_at S { sim with event_queue := rest } event = .ok false := forwards_at_skipped decoded
        obtain rfl := Except.ok.inj (skipped.symm.trans asked)
        intro step member
        rcases List.mem_cons.mp member with rfl | old
        · rfl
        · exact others step old
      · exact others

/-- A node that waits forwards as the loop decides. -/
theorem observe_decides {count : Nat} {steps : List (Packet × Bool)} (waits : Waits v params state forwarded sim)
    (ran : observe S v count sim = .ok steps) :
    steps.map Prod.snd =
      engine_decisions (S.forward_condition params) forwarded (responses S params state (steps.map Prod.fst)) := by
  induction count generalizing sim steps state forwarded with
  | zero =>
    obtain rfl : [] = steps := Except.ok.inj ran
    rfl
  | succ count ih =>
    cases popped : EventHeap.pop sim.event_queue with
    | none =>
      simp only [observe,popped] at ran
      obtain rfl : [] = steps := Except.ok.inj ran
      rfl
    | some next =>
      obtain ⟨event,rest⟩ := next
      simp only [observe,popped,bind_ok] at ran
      obtain ⟨forwards,asked,after,processed,later,observed,same⟩ := ran
      obtain rfl := Except.ok.inj same
      have handled := process_ok processed
      by_cases here : event.to_node = v
      · subst here
        rw [if_pos rfl]
        have params_same : sim.mechanism.strategy = params := waits.params
        cases handled with
        | skipped time known _ => cases known.symm.trans waits.undecoded
        | refused state₀ state' e undecoded found received changed =>
          obtain rfl := Option.some.inj (found.symm.trans waits.state)
          have none_sent : forwards_at S { sim with event_queue := rest } event = .ok false :=
            forwards_at_refused undecoded found received
          obtain rfl := Except.ok.inj (none_sent.symm.trans asked)
          have next : Waits event.to_node params state' forwarded after := by
            rw [changed]
            refine ⟨params_same,?_,waits.undecoded,waits.forwarded⟩
            exact List.getElem?_set_self (List.getElem?_eq_some_iff.mp found).1
          have received' : S.receive params state₀ event.packet = .ok (state',.error e) := params_same ▸ received
          simp only [List.map_cons,responses,received',decisions,ih next observed]
        | taken state₀ state' useful sends links undecoded found received changes =>
          obtain rfl := Option.some.inj (found.symm.trans waits.state)
          have decided : forwards_at S { sim with event_queue := rest } event =
              Simulation.should_forward S { sim with event_queue := rest } event.to_node useful
                (S.can_decode sim.mechanism.strategy state') := forwards_at_taken undecoded found received
          have received' : S.receive params state₀ event.packet = .ok (state',.ok useful) := params_same ▸ received
          obtain rfl := Except.ok.inj ((decided.trans changes.asked).symm.trans asked)
          have asks : engine_decides (S.forward_condition params) forwarded useful (S.can_decode params state') = sends := by
            have known := changes.asked
            have flag := index_of waits.forwarded
            simp only [Simulation.should_forward,params_same] at known
            cases condition : S.forward_condition params with
            | AfterDecode => rw [condition] at known; exact Except.ok.inj known
            | UntilDecode => rw [condition] at known; exact Except.ok.inj known
            | OneShot =>
              rw [condition] at known
              cases useful with
              | false => exact Except.ok.inj known
              | true =>
                simp only [if_true,flag,ok_bind,pure_eq] at known
                exact Except.ok.inj known
          simp only [List.map_cons,responses,received',decisions,asks]
          by_cases complete : S.can_decode params state' = true
          · have decoded : after.decode_times[event.to_node]? = some (some event.time) := by
              rw [changes.decode_times]
              simp only [params_same,complete,if_true]
              exact List.getElem?_set_self (List.getElem?_eq_some_iff.mp waits.undecoded).1
            have silent := observe_decoded decoded observed
            rw [if_pos complete,List.cons.injEq]
            refine ⟨rfl,List.ext_getElem (by simp [responses_length]) fun i inside _ => ?_⟩
            simp only [List.getElem_map]
            exact silent _ (List.getElem_mem (by simpa using inside))
          · have next : Waits event.to_node params state' (forwarded || sends) after := by
              refine ⟨by rw [changes.mechanism]; exact params_same,?_,?_,?_⟩
              · rw [changes.states]
                exact List.getElem?_set_self (List.getElem?_eq_some_iff.mp found).1
              · rw [changes.decode_times]
                simp only [params_same,complete,Bool.false_eq_true,if_false]
                exact waits.undecoded
              · rw [changes.has_forwarded]
                cases sends with
                | false => rw [Bool.or_false]; exact waits.forwarded
                | true =>
                  rw [Bool.or_true]
                  exact List.getElem?_set_self (List.getElem?_eq_some_iff.mp waits.forwarded).1
            rw [if_neg complete,ih next observed]
      · rw [if_neg here]
        obtain ⟨mechanism,states,times,flags⟩ := handled_elsewhere handled here
        exact ih ⟨by rw [mechanism]; exact waits.params,states.trans waits.state,times.trans waits.undecoded,
          flags.trans waits.forwarded⟩ observed

end

/-! ### One receiver -/

section
variable {σ K : Type}

/-- What becomes of data packets of block `n` at a protocol, one after the other. -/
def answers (P : Protocol σ) (n : Nat) : σ → List Bytes → List Response
  | _, [] => []
  | s, data :: rest =>
    match P.ingest s .Data n data with
    | .error _ => .refused :: answers P n s rest
    | .ok (s,.error _) => .refused :: answers P n s rest
    | .ok (s,.ok useful) => .taken useful (P.is_complete s) :: answers P n s rest

theorem answers_length (P : Protocol σ) (n : Nat) (s : σ) (packets : List Bytes) :
    (answers P n s packets).length = packets.length := by
  induction packets generalizing s with
  | nil => rfl
  | cons data rest ih =>
    simp only [answers]
    split <;> simp [ih]

/-- The batches of block `n` that a log shows. -/
def batches (n : Nat) (log : List (Actor.Event σ K)) : Nat :=
  log.countP fun
    | .forwarded k _ => k = n
    | _ => false

theorem batches_add (n : Nat) (log : List (Actor.Event σ K)) (event : Actor.Event σ K) :
    batches n (log ++ [event]) = batches n log + batches n [event] := List.countP_append

theorem batches_forwarded (n k : Nat) (batch : List (K × Bytes)) :
    batches n [(.forwarded k batch : Actor.Event σ K)] = if k = n then 1 else 0 := by
  by_cases same : k = n <;> simp [batches,same]

/-- A receiver that takes the packets of block `n`; what its protocol holds, and whether
    it has forwarded. -/
structure Takes (num_blocks n : Nat) (s : σ) (forwarded : Bool) (node : Receiver σ K) : Prop where
  alive : node.panicked = none
  state : node.state = .Decoding n
  protocol : node.protocol = s
  forwarded : node.forwarded = forwarded
  more : node.decoded_count < num_blocks

/-- A receiver that takes no more packets of block `n`. -/
def Past (n : Nat) (node : Receiver σ K) : Prop := node.panicked.isSome ∨ n < node.state.current_block

/-- Packets of block `n` do not make the protocol panic, and what it holds after a useful
    one can be forwarded. -/
structure Calm (P : Protocol σ) (n : Nat) (Good : σ → Prop) (Packet : Bytes → Prop) : Prop where
  ingest : ∀ s data, Good s → Packet data → ∃ t r, P.ingest s .Data n data = .ok (t,r) ∧ Good t ∧
    (r = .ok true → ∀ count rng, ∃ packets rest, P.recode t count rng = .ok (packets,rest))

variable [DecidableEq K] [SliceRandom] {P : Protocol σ} {n : Nat}

/-- Whether each packet of block `n` makes the receiver emit a batch of the block. -/
def forwardings (P : Protocol σ) (num_blocks n : Nat) : Receiver σ K → List (K × Bytes) → List Bool
  | _, [] => []
  | self, (sender,data) :: rest =>
    let next := self.receive P num_blocks sender .Data (message n data)
    decide (batches n self.log < batches n next.log) :: forwardings P num_blocks n next rest

/-- Forwarding emits one batch of the block. -/
theorem forward_batches (self : Receiver σ K) (k : Nat) (sender : Option K) {packets : List Bytes} {rng : Rng}
    (recoded : P.recode self.protocol self.mesh_degree self.rng = .ok (packets,rng)) :
    ∃ batch, self.forward P k sender = ({ self with forwarded := true, rng := rng.tail } : Receiver σ K).record
      (.forwarded k batch) := by
  rcases self.forward_spec P k sender with ⟨p,failed,_⟩ | ⟨packets',rng',targets,recoded',sent⟩
  · cases recoded.symm.trans failed
  · obtain ⟨rfl,rfl⟩ := ok_pair (recoded.symm.trans recoded')
    exact ⟨_,sent⟩

/-- Decoding emits no batch; the receiver goes on with the next block, or stops. -/
theorem finish_past (self : Receiver σ K) (k : Nat) :
    batches n (self.finish P k).1.log = batches n self.log ∧
      ((self.finish P k).1.panicked.isSome ∧ (self.finish P k).1.state = self.state ∨
        (self.finish P k).1.panicked = self.panicked ∧ (self.finish P k).1.state = .Init (k + 1)) := by
  cases decoded : P.decode self.protocol with
  | error p =>
    rw [self.finish_panics P k decoded]
    exact ⟨rfl,.inl ⟨rfl,rfl⟩⟩
  | ok result =>
    by_cases more : self.decoded_count + 1 < 2 ^ 64 ∧ k + 1 < 2 ^ 64
    · rw [self.finish_advances P k decoded more.1 more.2]
      exact ⟨batches_add n self.log _,.inr ⟨rfl,rfl⟩⟩
    · obtain ⟨count,stopped⟩ := self.finish_overflows P k decoded (by omega)
      rw [stopped]
      exact ⟨batches_add n self.log _,.inl ⟨rfl,rfl⟩⟩

/-- A useful packet of another block emits no batch of block `n`. -/
theorem on_useful_past (self : Receiver σ K) {k : Nat} (other : k ≠ n) (sender : Option K) :
    batches n (self.on_useful P k sender).1.log = batches n self.log ∧
      ((self.on_useful P k sender).1.state = self.state ∨ (self.on_useful P k sender).1.state = .Init (k + 1)) := by
  have sent : batches n (if self.should_forward P then self.forward P k sender else self).log = batches n self.log ∧
      (if self.should_forward P then self.forward P k sender else self).state = self.state := by
    split
    · rcases self.forward_spec P k sender with ⟨p,_,sent⟩ | ⟨packets,rng,targets,_,sent⟩
      · rw [sent]
        exact ⟨rfl,rfl⟩
      · rw [sent]
        refine ⟨(batches_add n self.log _).trans ?_,rfl⟩
        rw [batches_forwarded,if_neg other,Nat.add_zero]
    · exact ⟨rfl,rfl⟩
  unfold Receiver.on_useful
  generalize (if self.should_forward P then self.forward P k sender else self) = sender_done at sent
  obtain ⟨none_sent,state⟩ := sent
  simp only
  split
  · exact ⟨none_sent,.inl state⟩
  · split
    · obtain ⟨none_decoded,next⟩ := finish_past (P := P) (n := n) sender_done k
      refine ⟨none_decoded.trans none_sent,?_⟩
      rcases next with ⟨_,same⟩ | ⟨_,next⟩
      · exact .inl (same.trans state)
      · exact .inr next
    · exact ⟨none_sent,.inl state⟩

/-- Messages of later blocks emit no batch of block `n`. -/
theorem process_past (self : Receiver σ K) (past : n < self.state.current_block) (channel : Channel) (data : Bytes)
    (sender : Option K) :
    batches n (self.process P channel data sender).1.log = batches n self.log ∧
      n < (self.process P channel data sender).1.state.current_block := by
  have heard : ∀ k, batches n (self.log ++ [.ingest self.protocol channel k data]) = batches n self.log :=
    fun k => batches_add n self.log _
  cases waiting : self.state with
  | Init k =>
    have later : n < k := by simpa [waiting,ActorState.current_block] using past
    cases channel with
    | Data =>
      simp only [Receiver.process,waiting]
      exact ⟨trivial,later⟩
    | Announce =>
      simp only [Receiver.process,waiting]
      cases ran : P.ingest self.protocol .Announce k data with
      | error p =>
        rw [self.on_announce_panics P ran]
        exact ⟨heard k,past⟩
      | ok result =>
        obtain ⟨protocol,r⟩ := result
        by_cases accepted : r = .ok true
        · subst accepted
          rw [self.on_announce_accepts P ran]
          exact ⟨(batches_add n _ _).trans (heard k),later⟩
        · rw [self.on_announce_refuses P ran accepted]
          exact ⟨heard k,past⟩
  | Decoding k =>
    have later : n < k := by simpa [waiting,ActorState.current_block] using past
    cases channel with
    | Announce =>
      simp only [Receiver.process,waiting]
      exact ⟨trivial,later⟩
    | Data =>
      simp only [Receiver.process,waiting]
      cases ran : P.ingest self.protocol .Data k data with
      | error p =>
        rw [self.on_data_panics P sender ran]
        exact ⟨heard k,past⟩
      | ok result =>
        obtain ⟨protocol,r⟩ := result
        by_cases useful : r = .ok true
        · subst useful
          rw [self.on_data_useful P sender ran]
          obtain ⟨none_sent,state⟩ := on_useful_past
            ({ self.record (.ingest self.protocol .Data k data) with protocol } : Receiver σ K) later.ne' sender
          refine ⟨none_sent.trans (heard k),?_⟩
          rcases state with same | next
          · rw [same]
            exact past
          · rw [next]
            exact later.trans (Nat.lt_succ_self k)
        · rw [self.on_data_refuses P sender ran useful]
          exact ⟨heard k,past⟩

theorem drain_past (self : Receiver σ K) (work : List Item) (sender : Option K) (alive : self.panicked = none)
    (past : n < self.state.current_block) :
    batches n (self.drain P work sender).log = batches n self.log ∧ Past n (self.drain P work sender) := by
  have drained := Receiver.drain_keeps P
    (fun node _ => batches n node.log = batches n self.log ∧ n < node.state.current_block)
    (fun node => batches n node.log = batches n self.log ∧ node.panicked.isSome) (fun _ _ _ _ _ _ kept => kept) ?_
    self work sender alive ⟨rfl,past⟩
  · rcases drained with ⟨_,same,later⟩ | ⟨same,dead⟩
    · exact ⟨same,.inr later⟩
    · exact ⟨same,.inl dead⟩
  · rintro node channel bn data work sender _ ⟨same,later⟩
    obtain ⟨none_sent,still⟩ := process_past (P := P) node later channel data sender
    split
    · rename_i dead
      exact ⟨none_sent.trans same,dead⟩
    · exact ⟨none_sent.trans same,still⟩

/-- A receiver that takes no more packets of the block ignores them. -/
theorem receive_past {self : Receiver σ K} (past : Past n self) (small : n < 2 ^ 64) (num_blocks : Nat) (sender : K)
    (channel : Channel) (data : Bytes) : self.receive P num_blocks sender channel (message n data) = self := by
  unfold Receiver.receive
  rcases past with dead | later
  · rw [if_pos (.inl dead)]
  · obtain ⟨number,_⟩ := message_number small data
    split
    · rfl
    · split
      · rfl
      · rw [Receiver.route,number,if_pos later]

theorem forwardings_past {self : Receiver σ K} (past : Past n self) (small : n < 2 ^ 64) (num_blocks : Nat)
    (messages : List (K × Bytes)) : forwardings P num_blocks n self messages = messages.map fun _ => false := by
  induction messages with
  | nil => rfl
  | cons message rest ih =>
    obtain ⟨sender,data⟩ := message
    simp only [forwardings,receive_past past small,lt_self_iff_false,decide_false,ih,List.map_cons]

/-- A useful packet of the block emits a batch as the actor decides. -/
theorem on_useful_batches {num_blocks : Nat} {t : σ} {forwarded : Bool} {self : Receiver σ K}
    (takes : Takes num_blocks n t forwarded self)
    (recodes : ∀ count rng, ∃ packets rest, P.recode t count rng = .ok (packets,rest)) (sender : Option K) :
    let sends := actor_decides (P.forward_condition t) forwarded true (P.is_complete t)
    batches n (self.on_useful P n sender).1.log = batches n self.log + (if sends then 1 else 0) ∧
      if P.is_complete t then
        (self.on_useful P n sender).1.panicked.isSome ∨
          (self.on_useful P n sender).1.panicked = none ∧ (self.on_useful P n sender).1.state = .Init (n + 1)
      else (self.on_useful P n sender).2 = [] ∧ Takes num_blocks n t (forwarded || sends) (self.on_useful P n sender).1 := by
  intro sends
  have decided : self.should_forward P = sends := by
    cases condition : P.forward_condition t <;>
      simp [sends,Receiver.should_forward,actor_decides,takes.protocol,takes.forwarded,condition]
  obtain ⟨sent,known,emitted,kept⟩ : ∃ sent, (if self.should_forward P then self.forward P n sender else self) = sent ∧
      batches n sent.log = batches n self.log + (if sends then 1 else 0) ∧ Takes num_blocks n t (forwarded || sends) sent := by
    refine ⟨_,rfl,?_⟩
    rw [decided]
    by_cases send : sends = true
    · obtain ⟨packets,rng,recoded⟩ := recodes self.mesh_degree self.rng
      obtain ⟨batch,sent⟩ := forward_batches self n sender (by rw [takes.protocol]; exact recoded)
      rw [if_pos send,if_pos send,sent,send,Bool.or_true]
      refine ⟨(batches_add n self.log _).trans ?_,takes.alive,takes.state,takes.protocol,rfl,takes.more⟩
      rw [batches_forwarded,if_pos rfl]
    · rw [if_neg send,if_neg send,Bool.eq_false_iff.mpr send,Bool.or_false]
      exact ⟨rfl,takes⟩
  unfold Receiver.on_useful
  rw [known]
  simp only [kept.alive,kept.protocol,Option.isSome_none,Bool.false_eq_true,if_false]
  split
  · obtain ⟨none_sent,next⟩ := finish_past (P := P) (n := n) sent n
    refine ⟨none_sent.trans emitted,?_⟩
    rcases next with ⟨dead,_⟩ | ⟨alive,state⟩
    · exact .inl dead
    · exact .inr ⟨alive.trans kept.alive,state⟩
  · exact ⟨emitted,rfl,kept⟩

/-- A packet of the block, and how the receiver goes on. -/
theorem takes_step {num_blocks : Nat} {s : σ} {forwarded : Bool} {self : Receiver σ K} {Good : σ → Prop} {Packet : Bytes → Prop}
    (takes : Takes num_blocks n s forwarded self) (small : n < 2 ^ 64) (calm : Calm P n Good Packet) (good : Good s) {data : Bytes}
    (packet : Packet data) (sender : K) :
    ∃ t r, P.ingest s .Data n data = .ok (t,r) ∧ Good t ∧
      let next := self.receive P num_blocks sender .Data (message n data)
      if r = .ok true then
        let sends := actor_decides (P.forward_condition t) forwarded true (P.is_complete t)
        batches n next.log = batches n self.log + (if sends then 1 else 0) ∧
          if P.is_complete t then Past n next else Takes num_blocks n t (forwarded || sends) next
      else batches n next.log = batches n self.log ∧ Takes num_blocks n t forwarded next := by
  obtain ⟨t,r,ran,good',recodes⟩ := calm.ingest s data good packet
  refine ⟨t,r,ran,good',?_⟩
  obtain ⟨rfl⟩ := takes.protocol
  obtain ⟨number,payload⟩ := message_number small data
  have long : ¬(message n data).length < 8 := by simp [message,to_be_length]
  have current : n = self.state.current_block := by rw [takes.state]; rfl
  have routed : self.receive P num_blocks sender .Data (message n data) = self.drain P [(.Data,n,data)] (some sender) := by
    rw [Receiver.receive,if_neg (by simp [takes.alive,takes.more]),if_neg long,number,payload]
    simp [Receiver.route,← current]
  have processed : self.process P .Data data (some sender) = self.on_data P n data (some sender) := by
    simp only [Receiver.process,takes.state]
  have drained : self.receive P num_blocks sender .Data (message n data) =
      if (self.on_data P n data (some sender)).1.panicked.isSome then (self.on_data P n data (some sender)).1
      else (self.on_data P n data (some sender)).1.drain P (self.on_data P n data (some sender)).2 none := by
    rw [routed,Receiver.drain_cons,if_neg (not_not.mpr current),processed]
    rfl
  obtain ⟨called,named⟩ : ∃ called : Receiver σ K,
      called = { self.record (.ingest self.protocol .Data n data) with protocol := t } := ⟨_,rfl⟩
  have heard : batches n called.log = batches n self.log := by
    rw [named]
    exact batches_add n self.log _
  have taking : Takes num_blocks n t forwarded called := by
    rw [named]
    exact ⟨takes.alive,takes.state,rfl,takes.forwarded,takes.more⟩
  intro next
  by_cases useful : r = .ok true
  · subst useful
    rw [self.on_data_useful P (some sender) ran,← named] at drained
    obtain ⟨emitted,goes⟩ := on_useful_batches taking (recodes rfl) (some sender)
    rw [heard] at emitted
    rw [if_pos rfl]
    simp only [next]
    by_cases complete : P.is_complete t = true
    · simp only [complete,if_true] at emitted goes ⊢
      rcases goes with dead | ⟨alive,state⟩
      · rw [drained,if_pos dead]
        exact ⟨emitted,.inl dead⟩
      · have later : n < (called.on_useful P n (some sender)).1.state.current_block := by
          rw [state]
          exact Nat.lt_succ_self n
        obtain ⟨none_sent,past⟩ := drain_past (P := P) _ (called.on_useful P n (some sender)).2 none alive later
        rw [drained,if_neg (by simp [alive])]
        exact ⟨none_sent.trans emitted,past⟩
    · simp only [complete,Bool.false_eq_true,if_false] at emitted goes ⊢
      obtain ⟨empty,still⟩ := goes
      rw [drained,if_neg (by simp [still.alive]),empty,Receiver.drain_nil]
      exact ⟨emitted,still⟩
  · rw [self.on_data_refuses P (some sender) ran useful,← named] at drained
    rw [if_neg (by simp [taking.alive]),Receiver.drain_nil] at drained
    rw [if_neg useful]
    simp only [next,drained]
    exact ⟨heard,taking⟩

/-- A receiver forwards as the actor decides. -/
theorem forwardings_decide {num_blocks : Nat} {s : σ} {forwarded : Bool} {self : Receiver σ K} {Good : σ → Prop}
    {Packet : Bytes → Prop} {condition : ForwardCondition} (constant : ∀ t, P.forward_condition t = condition)
    (small : n < 2 ^ 64) (calm : Calm P n Good Packet) (good : Good s) (takes : Takes num_blocks n s forwarded self)
    {messages : List (K × Bytes)} (packets : ∀ message ∈ messages, Packet message.2) :
    forwardings P num_blocks n self messages =
      actor_decisions condition forwarded (answers P n s (messages.map Prod.snd)) := by
  induction messages generalizing self s forwarded with
  | nil => rfl
  | cons message rest ih =>
    obtain ⟨sender,data⟩ := message
    have later : ∀ message ∈ rest, Packet message.2 := fun message member => packets message (List.mem_cons_of_mem _ member)
    obtain ⟨t,r,ran,good',goes⟩ := takes_step takes small calm good (packets _ List.mem_cons_self) sender
    simp only at goes
    simp only [forwardings,List.map_cons,answers,ran]
    cases r with
    | error e =>
      rw [if_neg (by simp)] at goes
      obtain ⟨same,still⟩ := goes
      simp only [decisions,same,lt_self_iff_false,decide_false,ih good' still later]
    | ok useful =>
      cases useful with
      | false =>
        rw [if_neg (by simp)] at goes
        obtain ⟨same,still⟩ := goes
        simp only [decisions,actor_decides,same,lt_self_iff_false,decide_false,Bool.false_and,Bool.false_eq_true,if_false,
          Bool.or_false,ih good' still later]
      | true =>
        rw [if_pos rfl,constant] at goes
        obtain ⟨emitted,goes⟩ := goes
        have flag : decide (batches n self.log < batches n (self.receive P num_blocks sender .Data (message n data)).log) =
            actor_decides condition forwarded true (P.is_complete t) := by
          rw [emitted]
          cases actor_decides condition forwarded true (P.is_complete t) <;> simp
        simp only [decisions,flag,Bool.true_and]
        by_cases complete : P.is_complete t = true
        · rw [if_pos complete] at goes
          rw [if_pos complete,forwardings_past goes small]
          congr 1
          exact List.ext_getElem (by simp [answers_length]) fun i _ _ => by simp
        · rw [if_neg complete] at goes
          rw [if_neg complete,ih good' goes later]

/-- A receiver that waits for the announcement of block `n`, before any of its packets came. -/
structure Fresh (num_blocks n : Nat) (node : Receiver σ K) : Prop where
  alive : node.panicked = none
  state : node.state = .Init n
  unsent : node.forwarded = false
  unbuffered : ∀ item ∈ node.buffer, item.2.1 ≠ n
  more : node.decoded_count < num_blocks

/-- After the announcement it takes the packets of the block. -/
theorem Fresh.announced {num_blocks : Nat} {self : Receiver σ K} (fresh : Fresh num_blocks n self) (small : n < 2 ^ 64)
    {data : Bytes} {t : σ} (ran : P.ingest self.protocol .Announce n data = .ok (t,.ok true)) (sender : K) :
    Takes num_blocks n t false (self.receive P num_blocks sender .Announce (message n data)) := by
  obtain ⟨number,payload⟩ := message_number small data
  have long : ¬(message n data).length < 8 := by simp [message,to_be_length]
  have current : n = self.state.current_block := by rw [fresh.state]; rfl
  have none_held : (self.buffer.remove n).1 = [] :=
    List.filter_eq_nil_iff.mpr fun item member => by simpa using fresh.unbuffered item member
  have processed : self.process P .Announce data (some sender) = self.on_announce P n data := by
    simp only [Receiver.process,fresh.state]
  have routed : self.receive P num_blocks sender .Announce (message n data) =
      self.drain P [(.Announce,n,data)] (some sender) := by
    rw [Receiver.receive,if_neg (by simp [fresh.alive,fresh.more]),if_neg long,number,payload]
    simp [Receiver.route,← current]
  rw [routed,Receiver.drain_cons,if_neg (not_not.mpr current),processed,self.on_announce_accepts P ran,none_held]
  rw [if_neg (by simp [fresh.alive]),on_channel,List.filter_nil,List.append_nil,Receiver.drain_nil]
  exact ⟨fresh.alive,rfl,rfl,fresh.unsent,fresh.more⟩

end

end Rlnc.Forwarding
