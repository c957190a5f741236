import Rlnc.Reference
import Rlnc.Reordering

/-!
The work queue and the buffer of the actor, whatever the protocol does. A message that is
processed stays out of both, waits for its announcement, opens its block or closes it
(`process_moves`). From these moves and the places that the messages keep follows what
the buffer holds between calls (`route_all_tidy`), and that a call ends after at most one
turn of its loop for the message and one for each message in the buffer
(`route_terminates`).
-/
namespace Rlnc.WorkQueue
open Rlnc.Panics Rlnc.Wire Rlnc.Draws Rlnc.Blocks Rlnc.Protocols Rlnc.Actor Rlnc.Actor.Receiver Rlnc.Reordering
set_option linter.unusedSectionVars false

section
variable {σ K : Type} [DecidableEq K] [SliceRandom] (P : Protocol σ)

/-! ### What a processed message moves -/

/-- What one message does to the state, the buffer and the counter, and what it adds to the
    work queue; or it stops the actor. -/
inductive Moves (before : Receiver σ K) (channel : Channel) (data : Bytes) (after : Receiver σ K) (more : List Item) : Prop
  | stops (panicked : after.panicked.isSome = true)
  | keeps (opened : ∀ n, before.state = .Init n → channel = .Announce) (state : after.state = before.state)
    (buffer : after.buffer = before.buffer) (count : after.decoded_count = before.decoded_count) (added : more = [])
  | holds (n : Nat) (packet : channel = .Data) (waiting : before.state = .Init n) (state : after.state = .Init n)
    (buffer : after.buffer = before.buffer ++ [(.Data,n,data)]) (count : after.decoded_count = before.decoded_count)
    (alive : after.panicked = before.panicked) (added : more = [])
  | opens (n : Nat) (waiting : before.state = .Init n) (state : after.state = .Decoding n)
    (buffer : after.buffer = (before.buffer.remove n).2) (count : after.decoded_count = before.decoded_count)
    (added : more = on_channel .Data (before.buffer.remove n).1)
  | closes (n : Nat) (working : before.state = .Decoding n) (state : after.state = .Init (n + 1))
    (buffer : after.buffer = (before.buffer.remove (n + 1)).2) (count : after.decoded_count = before.decoded_count + 1)
    (added : more = on_channel .Announce (before.buffer.remove (n + 1)).1 ++ on_channel .Data (before.buffer.remove (n + 1)).1)

theorem forward_keeps (self : Receiver σ K) (n : Nat) (sender : Option K) :
    (self.forward P n sender).state = self.state ∧ (self.forward P n sender).buffer = self.buffer ∧
      (self.forward P n sender).decoded_count = self.decoded_count := by
  rcases self.forward_spec P n sender with ⟨p,_,sent⟩ | ⟨packets,rng,targets,_,sent⟩
  · rw [sent]
    exact ⟨rfl,rfl,rfl⟩
  · rw [sent]
    exact ⟨rfl,rfl,rfl⟩

/-- Forwarding does not matter here, and finishing closes the block. -/
theorem on_useful_moves (self : Receiver σ K) {n : Nat} (data : Bytes) (sender : Option K) (working : self.state = .Decoding n) :
    Moves self .Data data (self.on_useful P n sender).1 (self.on_useful P n sender).2 := by
  have sent : ∃ sent : Receiver σ K, (if self.should_forward P then self.forward P n sender else self) = sent ∧
      sent.state = self.state ∧ sent.buffer = self.buffer ∧ sent.decoded_count = self.decoded_count := by
    refine ⟨_,rfl,?_⟩
    by_cases forwards : self.should_forward P = true
    · rw [if_pos forwards]
      exact forward_keeps P self n sender
    · rw [if_neg forwards]
      exact ⟨rfl,rfl,rfl⟩
  obtain ⟨sent,named,state,buffer,count⟩ := sent
  have busy : ∀ k, self.state = .Init k → Channel.Data = .Announce := by
    intro k waiting
    rw [working] at waiting
    cases waiting
  simp only [on_useful,named]
  by_cases failed : sent.panicked.isSome = true
  · rw [if_pos failed]
    exact .stops failed
  · rw [if_neg failed]
    by_cases complete : P.is_complete sent.protocol = true
    · rw [if_pos complete]
      cases decoded : P.decode sent.protocol with
      | error p =>
        rw [sent.finish_panics P n decoded]
        exact .stops rfl
      | ok result =>
        by_cases room : sent.decoded_count + 1 < 2 ^ 64 ∧ n + 1 < 2 ^ 64
        · rw [sent.finish_advances P n decoded room.1 room.2]
          exact .closes n working rfl (by rw [← buffer]; rfl) (by rw [← count]; rfl) (by rw [← buffer])
        · obtain ⟨_,stopped⟩ := sent.finish_overflows P n decoded (by omega)
          rw [stopped]
          exact .stops rfl
    · rw [if_neg complete]
      exact .keeps busy state buffer count rfl

/-- The protocol and the log are not looked at. -/
theorem Moves.heard {self after : Receiver σ K} {channel : Channel} {data : Bytes} {more : List Item} {event : Event σ K}
    {protocol : σ} (moved : Moves ({ self.record event with protocol } : Receiver σ K) channel data after more) :
    Moves self channel data after more := by
  cases moved with
  | stops panicked => exact .stops panicked
  | keeps opened state buffer count added => exact .keeps opened state buffer count added
  | holds n packet waiting state buffer count alive added => exact .holds n packet waiting state buffer count alive added
  | opens n waiting state buffer count added => exact .opens n waiting state buffer count added
  | closes n working state buffer count added => exact .closes n working state buffer count added

theorem process_moves (self : Receiver σ K) (channel : Channel) (data : Bytes) (sender : Option K) :
    Moves self channel data (self.process P channel data sender).1 (self.process P channel data sender).2 := by
  cases waiting : self.state with
  | Init n =>
    cases channel with
    | Data =>
      simp only [process,waiting]
      exact .holds n rfl waiting rfl rfl rfl rfl rfl
    | Announce =>
      simp only [process,waiting]
      cases ran : P.ingest self.protocol .Announce n data with
      | error p =>
        rw [self.on_announce_panics P ran]
        exact .stops rfl
      | ok result =>
        obtain ⟨protocol,r⟩ := result
        by_cases accepted : r = .ok true
        · rw [accepted] at ran
          rw [self.on_announce_accepts P ran]
          exact .opens n waiting rfl rfl rfl rfl
        · rw [self.on_announce_refuses P ran accepted]
          exact .keeps (fun _ _ => rfl) rfl rfl rfl rfl
  | Decoding n =>
    have busy : ∀ k, self.state = .Init k → channel = .Announce := by
      intro k idle
      rw [waiting] at idle
      cases idle
    cases channel with
    | Announce =>
      simp only [process,waiting]
      exact .keeps busy rfl rfl rfl rfl
    | Data =>
      simp only [process,waiting]
      cases ran : P.ingest self.protocol .Data n data with
      | error p =>
        rw [self.on_data_panics P sender ran]
        exact .stops rfl
      | ok result =>
        obtain ⟨protocol,r⟩ := result
        by_cases useful : r = .ok true
        · rw [useful] at ran
          rw [self.on_data_useful P sender ran]
          have moved := on_useful_moves P
            ({ self.record (.ingest self.protocol .Data n data) with protocol } : Receiver σ K) data sender waiting
          exact moved.heard
        · rw [self.on_data_refuses P sender ran useful]
          exact .keeps busy rfl rfl rfl rfl

/-! ### The buffer between calls -/

/-- The buffer of an actor that has finished the blocks before its own: nothing of a
    finished block, nothing of the block it decodes, and no announcement of the block it
    waits for. -/
structure Tidy (node : Receiver σ K) : Prop where
  counted : node.decoded_count = node.state.current_block
  ahead : ∀ item ∈ node.buffer, node.state.current_block ≤ item.2.1
  taken : ∀ n, node.state = .Decoding n → ∀ item ∈ node.buffer, item.2.1 ≠ n
  waiting : ∀ n, node.state = .Init n → ∀ item ∈ node.buffer, item.2.1 = n → item.1 = .Data

variable {P} {self after : Receiver σ K} {channel : Channel} {data : Bytes} {more : List Item}

/-- The counter goes with the state. -/
theorem Moves.counted (moves : Moves self channel data after more) (counted : self.decoded_count = self.state.current_block) :
    after.panicked.isSome = true ∨ after.decoded_count = after.state.current_block := by
  cases moves with
  | stops panicked => exact .inl panicked
  | keeps opened state buffer count added =>
    rw [count,state]
    exact .inr counted
  | holds n packet waiting state buffer count alive added =>
    rw [count,state,counted,waiting]
    exact .inr rfl
  | opens n waiting state buffer count added =>
    rw [count,state,counted,waiting]
    exact .inr rfl
  | closes n working state buffer count added =>
    rw [count,state,counted,working]
    exact .inr rfl

theorem route_counted (counted : self.decoded_count = self.state.current_block) (alive : self.panicked = none)
    (channel : Channel) (n : Nat) (data : Bytes) (sender : Option K) :
    (self.route P channel n data sender).panicked.isSome = true ∨
      (self.route P channel n data sender).decoded_count = (self.route P channel n data sender).state.current_block := by
  unfold route
  by_cases stale : n < self.state.current_block
  · rw [if_pos stale]
    exact .inr counted
  · rw [if_neg stale]
    by_cases early : n > self.state.current_block
    · rw [if_pos early]
      exact .inr counted
    · rw [if_neg early]
      have kept := drain_keeps P (fun node _ => node.decoded_count = node.state.current_block)
        (fun node => node.panicked.isSome = true) (fun _ _ _ _ _ _ counted => counted) (by
          intro node channel bn data work sender _ counted
          have moved := (process_moves P node channel data sender).counted counted
          split
          · rename_i stopped
            exact stopped
          · rename_i goes
            exact moved.resolve_left goes) self [(channel,n,data)] sender alive counted
      exact kept.symm.imp id And.right

theorem route_all_counted (counted : self.decoded_count = self.state.current_block) (alive : self.panicked = none)
    (arrivals : List (Option K × Item)) (survives : (route_all P self arrivals).panicked = none) :
    (route_all P self arrivals).decoded_count = (route_all P self arrivals).state.current_block := by
  induction arrivals generalizing self with
  | nil => exact counted
  | cons arrival arrivals ih =>
    obtain ⟨sender,channel,n,data⟩ := arrival
    have ran : route_all P self ((sender,channel,n,data) :: arrivals) =
        route_all P (self.route P channel n data sender) arrivals := by
      simp only [route_all,List.foldl_cons,alive,Option.isSome_none,Bool.false_eq_true,if_false]
    rw [ran] at survives ⊢
    cases panicked : (self.route P channel n data sender).panicked with
    | none =>
      have counted' := (route_counted (P := P) counted alive channel n data sender).resolve_left (by simp [panicked])
      exact ih counted' panicked survives
    | some p =>
      rw [route_all_panicked panicked,panicked] at survives
      cases survives

/-- What the places of the messages say about the buffer. -/
theorem tidy_of (counted : self.decoded_count = self.state.current_block) (arranged : Arranged self []) : Tidy self := by
  have ahead := arranged.ahead
  refine ⟨counted,?_,?_,?_⟩
  · intro item member
    have place := ahead item member
    cases state : self.state with
    | Init n =>
      rw [state] at place
      rcases place with later | ⟨same,_⟩
      · exact later.le
      · exact same.ge
    | Decoding n =>
      rw [state] at place
      exact le_of_lt place
  · intro n working item member
    have place := ahead item member
    rw [working] at place
    exact Nat.ne_of_gt place
  · intro n idle item member same
    have place := ahead item member
    rw [idle] at place
    rcases place with later | ⟨_,packet⟩
    · exact absurd same (Nat.ne_of_gt later)
    · exact packet

private theorem arranged_new (protocol : σ) (peers : List K) (mesh_degree : Nat) (rng : Rng) :
    Arranged (Receiver.new (NodeActor.new protocol peers mesh_degree rng) : Receiver σ K) [] :=
  ⟨by simp,by simp [Receiver.new,NodeActor.new],.nil,fun _ _ => .inl rfl⟩

/-- The places of the messages after any calls that did not panic. -/
theorem route_all_arranged (arranged : Arranged self []) (alive : self.panicked = none) (arrivals : List (Option K × Item))
    (survives : (route_all P self arrivals).panicked = none) : Arranged (route_all P self arrivals) [] := by
  have goes := route_all_goes (P := P) alive arranged arrivals
  rw [Goes,survives] at goes
  simpa using goes.1

variable (P) in
/-- After any sequence of calls that did not panic the buffer is tidy. -/
theorem route_all_tidy (protocol : σ) (peers : List K) (mesh_degree : Nat) (rng : Rng) (calls : List (Option K × Item))
    (survives : (route_all P (Receiver.new (NodeActor.new protocol peers mesh_degree rng)) calls).panicked = none) :
    Tidy (route_all P (Receiver.new (NodeActor.new protocol peers mesh_degree rng)) calls) :=
  tidy_of (route_all_counted rfl rfl calls survives)
    (route_all_arranged (arranged_new protocol peers mesh_degree rng) rfl calls survives)

/-! ### The turns of the loop -/

variable (P) in
/-- The loop from a work queue: the number of its turns, and what it leaves. -/
inductive Loop : Receiver σ K → List Item → Option K → Nat → Receiver σ K → Prop
  | ends (self : Receiver σ K) (sender : Option K) : Loop self [] sender 0 self
  | skips {self r : Receiver σ K} {channel : Channel} {bn : Nat} {data : Bytes} {work : List Item} {sender : Option K} {k : Nat}
    (other : bn ≠ self.state.current_block) (rest : Loop self work sender k r) :
    Loop self ((channel,bn,data) :: work) sender (k + 1) r
  | stops {self : Receiver σ K} {channel : Channel} {bn : Nat} {data : Bytes} {work : List Item} {sender : Option K}
    (current : bn = self.state.current_block)
    (panicked : (self.process P channel data sender).1.panicked.isSome = true) :
    Loop self ((channel,bn,data) :: work) sender 1 (self.process P channel data sender).1
  | turns {self r : Receiver σ K} {channel : Channel} {bn : Nat} {data : Bytes} {work : List Item} {sender : Option K} {k : Nat}
    (current : bn = self.state.current_block)
    (alive : ¬(self.process P channel data sender).1.panicked.isSome = true)
    (rest : Loop (self.process P channel data sender).1 (work ++ (self.process P channel data sender).2) none k r) :
    Loop self ((channel,bn,data) :: work) sender (k + 1) r

/-- A loop has one number of turns and one outcome. -/
theorem Loop.unique {work : List Item} {sender : Option K} {k k' : Nat} {r r' : Receiver σ K}
    (left : Loop P self work sender k r) (right : Loop P self work sender k' r') : k' = k ∧ r' = r := by
  induction left generalizing k' r' with
  | ends self sender =>
    cases right
    exact ⟨rfl,rfl⟩
  | skips other rest ih =>
    cases right with
    | skips _ rest' =>
      obtain ⟨rfl,rfl⟩ := ih rest'
      exact ⟨rfl,rfl⟩
    | stops current _ => exact absurd current other
    | turns current _ _ => exact absurd current other
  | stops current panicked =>
    cases right with
    | skips other _ => exact absurd current other
    | stops _ _ => exact ⟨rfl,rfl⟩
    | turns _ alive _ => exact absurd panicked alive
  | turns current alive rest ih =>
    cases right with
    | skips other _ => exact absurd current other
    | stops _ panicked => exact absurd panicked alive
    | turns _ _ rest' =>
      obtain ⟨rfl,rfl⟩ := ih rest'
      exact ⟨rfl,rfl⟩

theorem drain_other {bn : Nat} (other : bn ≠ self.state.current_block) (work : List Item) (sender : Option K) :
    self.drain P ((channel,bn,data) :: work) sender = self.drain P work sender := by
  rw [drain_cons,if_pos other]

theorem drain_stops {bn : Nat} {sender : Option K} (current : bn = self.state.current_block)
    (panicked : (self.process P channel data sender).1.panicked.isSome = true) (work : List Item) :
    self.drain P ((channel,bn,data) :: work) sender = (self.process P channel data sender).1 := by
  rw [drain_cons,if_neg (not_not.mpr current),if_pos panicked]

theorem drain_turns {bn : Nat} {sender : Option K} (current : bn = self.state.current_block)
    (alive : ¬(self.process P channel data sender).1.panicked.isSome = true) (work : List Item) :
    self.drain P ((channel,bn,data) :: work) sender =
      (self.process P channel data sender).1.drain P (work ++ (self.process P channel data sender).2) none := by
  rw [drain_cons,if_neg (not_not.mpr current),if_neg alive]

variable (P) in
/-- While no announcement of its block is in the queue, a waiting actor only puts packets
    into its buffer, one for each turn. -/
theorem held_loop {n : Nat} (waiting : self.state = .Init n) (alive : self.panicked = none) (work : List Item)
    (packets : ∀ item ∈ work, item.2.1 = n → item.1 = .Data) (sender : Option K) :
    ∃ k ≤ work.length, Loop P self work sender k (self.drain P work sender) := by
  induction work generalizing self sender with
  | nil => exact ⟨0,le_rfl,by rw [drain_nil]; exact .ends self sender⟩
  | cons item work ih =>
    obtain ⟨channel,bn,data⟩ := item
    have rest : ∀ item ∈ work, item.2.1 = n → item.1 = .Data := fun item member => packets item (by simp [member])
    by_cases current : bn = self.state.current_block
    · have own : bn = n := by rw [current,waiting]; rfl
      obtain rfl : channel = .Data := packets (channel,bn,data) (by simp) own
      have ran : self.process P .Data data sender = ({ self with buffer := self.buffer ++ [(.Data,n,data)] },[]) := by
        simp only [process,waiting]
      have going : ¬(self.process P .Data data sender).1.panicked.isSome = true := by
        rw [ran]
        simp [alive]
      have later := fun (node : Receiver σ K) (waiting : node.state = .Init n) (alive : node.panicked = none) =>
        ih waiting alive rest none
      obtain ⟨k,few,loop⟩ := later (self.process P .Data data sender).1 (by rw [ran]; exact waiting) (by rw [ran]; exact alive)
      refine ⟨k + 1,by simpa using few,?_⟩
      rw [drain_turns current going]
      refine .turns current going ?_
      rwa [ran,List.append_nil,← ran]
    · obtain ⟨k,few,loop⟩ := ih waiting alive rest sender
      refine ⟨k + 1,by simpa using few,?_⟩
      rw [drain_other current]
      exact .skips current loop

variable (P) in
/-- Each turn takes a message from the queue, and what it adds to the queue it takes from
    the buffer; messages go back into the buffer only when none can come out of it. -/
theorem drain_loop (alive : self.panicked = none) {work : List Item} (arranged : Arranged self work) (sender : Option K) :
    ∃ k ≤ work.length + self.buffer.length, Loop P self work sender k (self.drain P work sender) := by
  induction bound : work.length + self.buffer.length using Nat.strong_induction_on generalizing self work sender with
  | _ total ih =>
    cases work with
    | nil => exact ⟨0,Nat.zero_le _,by rw [drain_nil]; exact .ends self sender⟩
    | cons item work =>
      obtain ⟨channel,bn,data⟩ := item
      rw [List.length_cons] at bound
      by_cases current : bn = self.state.current_block
      · by_cases panicked : (self.process P channel data sender).1.panicked.isSome = true
        · rw [drain_stops current panicked]
          exact ⟨1,by omega,.stops current panicked⟩
        · rw [drain_turns current panicked]
          have going : (self.process P channel data sender).1.panicked = none := by simpa using panicked
          have goes := process_goes (P := P) alive (current ▸ arranged) sender
          rw [Goes,going] at goes
          have moves := process_moves P self channel data sender
          -- the rest of the loop is shorter when the queue grows from the buffer only
          have shorter : work.length + (self.process P channel data sender).2.length +
              (self.process P channel data sender).1.buffer.length < total →
              ∃ k ≤ total, Loop P self ((channel,bn,data) :: work) sender k
                ((self.process P channel data sender).1.drain P (work ++ (self.process P channel data sender).2) none) := by
            intro less
            obtain ⟨k,few,loop⟩ := ih _ less going goes.1 none (by rw [List.length_append])
            exact ⟨k + 1,by omega,.turns current panicked loop⟩
          cases moves with
          | stops stopped => exact absurd stopped panicked
          | keeps opened state buffer count added =>
            refine shorter ?_
            rw [buffer,added,List.length_nil]
            omega
          | holds n packet waiting state buffer count same added =>
            subst packet
            have own : self.state.current_block = n := by rw [waiting]; rfl
            have sorted := (List.pairwise_cons.mp arranged.sorted).1
            obtain ⟨k,few,loop⟩ := held_loop P state going work (by
              intro item member named
              obtain ⟨channel',bn',data'⟩ := item
              cases channel' with
              | Data => rfl
              | Announce => exact absurd ⟨rfl,named.trans own.symm⟩ (sorted _ member rfl current)) none
            rw [added,List.append_nil]
            refine ⟨k + 1,by omega,.turns current panicked ?_⟩
            rwa [added,List.append_nil]
          | opens n waiting state buffer count added =>
            refine shorter ?_
            have split := remove_length self.buffer n
            have part := on_channel_length .Data (self.buffer.remove n).1
            rw [buffer,added]
            omega
          | closes n working state buffer count added =>
            refine shorter ?_
            have split := remove_length self.buffer (n + 1)
            rw [buffer,added,by_channel_length]
            omega
      · obtain ⟨k,few,loop⟩ := ih _ (by omega) alive arranged.tail sender rfl
        rw [drain_other current]
        exact ⟨k + 1,by omega,.skips current loop⟩

variable (P) in
/-- A call of `route`: the turns of its loop, and what it leaves. -/
inductive Route (self : Receiver σ K) (channel : Channel) (block_num : Nat) (payload : Bytes) (sender : Option K) :
    Nat → Receiver σ K → Prop
  | stale (old : block_num < self.state.current_block) : Route self channel block_num payload sender 0 self
  | early (later : self.state.current_block < block_num) :
    Route self channel block_num payload sender 0 { self with buffer := self.buffer ++ [(channel,block_num,payload)] }
  | current {k : Nat} {r : Receiver σ K} (same : block_num = self.state.current_block)
    (loop : Loop P self [(channel,block_num,payload)] sender k r) : Route self channel block_num payload sender k r

variable (P) in
/-- Every call of `route` on a state that earlier calls left ends, with a number of turns
    that is at most one more than the messages in the buffer. -/
theorem route_terminates (protocol : σ) (peers : List K) (mesh_degree : Nat) (rng : Rng) (calls : List (Option K × Item))
    (survives : (route_all P (Receiver.new (NodeActor.new protocol peers mesh_degree rng)) calls).panicked = none)
    (channel : Channel) (block_num : Nat) (payload : Bytes) (sender : Option K) :
    let node := route_all P (Receiver.new (NodeActor.new protocol peers mesh_degree rng)) calls
    ∃ turns ≤ 1 + node.buffer.length, ∀ (k : Nat) (r : Receiver σ K), Route P node channel block_num payload sender k r ↔
      k = turns ∧ r = node.route P channel block_num payload sender := by
  intro node
  have arranged : Arranged node [] := route_all_arranged (arranged_new protocol peers mesh_degree rng) rfl calls survives
  rcases Nat.lt_trichotomy block_num node.state.current_block with old | same | later
  · refine ⟨0,Nat.zero_le _,fun k r => ?_⟩
    have ran : node.route P channel block_num payload sender = node := if_pos old
    rw [ran]
    constructor
    · intro route
      cases route with
      | stale _ => exact ⟨rfl,rfl⟩
      | early later => omega
      | current same _ => omega
    · rintro ⟨rfl,rfl⟩
      exact .stale old
  · have queued : Arranged node [(channel,block_num,payload)] := by
      refine ⟨?_,arranged.ahead,List.pairwise_singleton _ _,fun n _ => ?_⟩
      · intro item member
        rw [List.mem_singleton.mp member]
        exact same.le
      · right
        cases channel with
        | Announce => exact .inr rfl
        | Data => exact .inl rfl
    obtain ⟨turns,few,loop⟩ := drain_loop P survives queued sender
    have ran : node.route P channel block_num payload sender = node.drain P [(channel,block_num,payload)] sender :=
      (if_neg (by omega)).trans (if_neg (by omega))
    refine ⟨turns,few,fun k r => ?_⟩
    rw [ran]
    constructor
    · intro route
      cases route with
      | stale old => omega
      | early later => omega
      | current _ loop' => exact loop.unique loop'
    · rintro ⟨rfl,rfl⟩
      exact .current same loop
  · refine ⟨0,Nat.zero_le _,fun k r => ?_⟩
    have ran : node.route P channel block_num payload sender =
        { node with buffer := node.buffer ++ [(channel,block_num,payload)] } := (if_neg (by omega)).trans (if_pos later)
    rw [ran]
    constructor
    · intro route
      cases route with
      | stale old => omega
      | early _ => exact ⟨rfl,rfl⟩
      | current same _ => omega
    · rintro ⟨rfl,rfl⟩
      exact .early later

end

section
open Rlnc.Reference

/-- Both messages of the second block come before the announcement of the first. -/
private def second_first : List (Option Nat × Item) :=
  [(some 1,.Announce,1,to_be 8 97),(some 2,.Data,1,(block_of []).serialize),(some 1,.Announce,0,to_be 8 97)]

/-- A full-block actor that has received them. -/
private def early_bird : Receiver BaselineProtocol Nat :=
  route_all BaselineProtocol.protocol (Receiver.new (NodeActor.new BaselineProtocol.new [1,2] 1 (Stream'.const 0))) second_first

private theorem early_bird_survives : early_bird.panicked = none := by decide +kernel

private theorem early_bird_holds : early_bird.buffer.length = 2 := by decide +kernel

theorem route_all_tidy_two : Tidy early_bird :=
  route_all_tidy BaselineProtocol.protocol BaselineProtocol.new [1,2] 1 (Stream'.const 0) second_first early_bird_survives

/-- The packet of the first block makes the actor finish both. -/
theorem route_terminates_two : ∃ turns ≤ 3, ∀ (k : Nat) (r : Receiver BaselineProtocol Nat),
    Route BaselineProtocol.protocol early_bird .Data 0 (block_of []).serialize (some 2) k r ↔
      k = turns ∧ r = early_bird.route BaselineProtocol.protocol .Data 0 (block_of []).serialize (some 2) := by
  obtain ⟨turns,few,exactly⟩ := route_terminates BaselineProtocol.protocol BaselineProtocol.new [1,2] 1 (Stream'.const 0)
    second_first early_bird_survives .Data 0 (block_of []).serialize (some 2)
  refine ⟨turns,?_,exactly⟩
  have held := early_bird_holds
  exact few.trans (by rw [show (route_all BaselineProtocol.protocol (Receiver.new (NodeActor.new BaselineProtocol.new [1,2] 1
    (Stream'.const 0))) second_first).buffer.length = 2 from held])

end

end Rlnc.WorkQueue
