import Rlnc.Liveness

/-!
The traffic of a network ends. A receiver sends no more for a block than its limit, and is at no
block that was not proposed, so after the last proposal there are only so many messages
(`run_traffic`). Hence deliveries come to an end in every order (`comes_to_rest`). With a coded
protocol a receiver has then decoded what the packets that were sent to it span (`rests_exactly`),
and with full blocks everyone has decoded what was proposed (`everyone_decodes`).
-/
namespace Rlnc.Quiescence
open Rlnc.Panics Rlnc.Wire Rlnc.Packing Rlnc.Coding Rlnc.Draws Rlnc.Blocks Rlnc.Groups Rlnc.Integrity Rlnc.Bfkw Rlnc.Pedersen
open Rlnc.Protocols Rlnc.Actor Rlnc.Runs Rlnc.CodedRuns Rlnc.Network Rlnc.PedersenProtocol Rlnc.BfkwProtocol
open Rlnc.Amplification Rlnc.Completion Rlnc.Liveness
set_option linter.unusedSectionVars false

/-! ### What one receiver sends -/

section
variable {σ K : Type}

theorem Orderly.init {log : List (Actor.Event σ K)} {event : Actor.Event σ K} (orderly : Orderly (log ++ [event])) :
    Orderly log :=
  fun before e later split => orderly before e (later ++ [event]) (by rw [split]; simp)

/-- A receiver is at the first block, or after one that it decoded. -/
theorem phase_within {log : List (Actor.Event σ K)} (orderly : Orderly log) {bound : Nat}
    (decoded : ∀ n block, .decoded n block ∈ log → n < bound) : (phase log).current_block ≤ bound := by
  induction log using List.reverseRecOn with
  | nil => exact Nat.zero_le _
  | append_singleton log event ih =>
    have before := ih (Orderly.init orderly) fun n block listed => decoded n block (List.mem_append_left _ listed)
    rw [phase_snoc]
    cases event with
    | ingest s channel n data => exact before
    | forwarded n batch => exact before
    | decoded n block => exact decoded n block (by simp)
    | announced msg =>
      have waiting : phase log = .Init (number msg) := orderly log _ [] rfl
      rw [waiting] at before
      exact before

/-- What an event sends is for the block that the receiver is at. -/
theorem outgoing_timely {state : ActorState} {event : Actor.Event σ K} (timely : Timely state event) (k : K) :
    (outgoing k event).length ≤ announces state.current_block event + sends state.current_block event := by
  cases event with
  | ingest s channel n data => exact Nat.zero_le _
  | decoded n block => exact Nat.zero_le _
  | announced msg =>
    obtain rfl : state = .Init (number msg) := timely
    simp [outgoing,announces,ActorState.current_block]
  | forwarded n batch =>
    obtain ⟨rfl,numbers⟩ := timely
    have all : batch.countP (fun entry => number entry.2 = n) = batch.length :=
      List.countP_eq_length.mpr fun entry listed => decide_eq_true (numbers entry listed)
    simp only [outgoing,announces,sends,ActorState.current_block,List.length_map,zero_add]
    exact all.ge

/-- All that was sent was sent for one of the blocks up to the bound. -/
theorem emitted_le_sum {log : List (Actor.Event σ K)} (orderly : Orderly log) {bound : Nat}
    (decoded : ∀ n block, .decoded n block ∈ log → n < bound) (k : K) :
    (log.flatMap (outgoing k)).length ≤ ∑ n ∈ Finset.range (bound + 1), (announcements n log + data_sent n log) := by
  induction log using List.reverseRecOn with
  | nil => exact Nat.zero_le _
  | append_singleton log event ih =>
    have earlier : ∀ n block, .decoded n block ∈ log → n < bound :=
      fun n block listed => decoded n block (List.mem_append_left _ listed)
    have timely : Timely (phase log) event := orderly log event [] rfl
    have here : (phase log).current_block ∈ Finset.range (bound + 1) :=
      Finset.mem_range.mpr (Nat.lt_succ_of_le (phase_within (Orderly.init orderly) earlier))
    have new : (outgoing k event).length ≤ ∑ n ∈ Finset.range (bound + 1), (announces n event + sends n event) :=
      (outgoing_timely timely k).trans
        (Finset.single_le_sum (f := fun n => announces n event + sends n event) (fun _ _ => Nat.zero_le _) here)
    calc ((log ++ [event]).flatMap (outgoing k)).length
        = (log.flatMap (outgoing k)).length + (outgoing k event).length := by simp
      _ ≤ ∑ n ∈ Finset.range (bound + 1), (announcements n log + data_sent n log) +
            ∑ n ∈ Finset.range (bound + 1), (announces n event + sends n event) :=
          Nat.add_le_add (ih (Orderly.init orderly) earlier) new
      _ = ∑ n ∈ Finset.range (bound + 1), (announcements n (log ++ [event]) + data_sent n (log ++ [event])) := by
          rw [← Finset.sum_add_distrib]
          refine Finset.sum_congr rfl fun n _ => ?_
          rw [announcements_snoc,data_sent_snoc]
          omega

/-- A receiver sends no more than its limits for each block. -/
theorem emitted_few {limit degree : Nat} {log : List (Actor.Event σ K)} (bounded : Bounded limit degree log) {bound : Nat}
    (decoded : ∀ n block, .decoded n block ∈ log → n < bound) (k : K) :
    (log.flatMap (outgoing k)).length ≤ (bound + 1) * (1 + limit * degree) := by
  refine (emitted_le_sum bounded.orderly decoded k).trans ?_
  have each := Finset.sum_le_card_nsmul (Finset.range (bound + 1)) (fun n => announcements n log + data_sent n log)
    (1 + limit * degree) fun n _ => Nat.add_le_add (bounded.announced n) (bounded.sent n)
  simpa using each

end

/-! ### What there is in flight -/

section
variable [FixedCodec UInt32] [FixedCodec UInt64] [BytesCodec] {σ K : Type} [DecidableEq K] [SliceRandom] [Fintype K] {P : Protocol σ}
  {config : Config σ K} {net : Network σ K} {actions : List (Action K)}

/-- As many messages as there can be for a number of proposed blocks. -/
def traffic (config : Config σ K) (limit count : Nat) : Nat :=
  count * (1 + config.mesh_degree config.source) + ∑ k, (count + 1) * (1 + limit * config.mesh_degree k)

/-- The proposer sends at most `mesh_degree` packets for a block, and the rest is in the logs. -/
structure Sent (config : Config σ K) (net : Network σ K) : Prop where
  degree : net.proposer.mesh_degree = config.mesh_degree config.source
  count : net.sent.length ≤ net.blocks.length * (1 + config.mesh_degree config.source) +
    ∑ k, ((net.receivers k).log.flatMap (outgoing k)).length

theorem Sent.propose (sent : Sent config net) {next : Network σ K} (ran : net.propose P config = some next) :
    Sent config next := by
  obtain ⟨proposer,proposed,_,made,rfl⟩ := Network.propose_cases ran
  obtain ⟨degree,count⟩ := sent
  obtain ⟨kept,_⟩ := propose_block_frame made
  have few := propose_block_few made
  rw [degree] at kept few
  refine ⟨kept,?_⟩
  simp only [List.length_append,List.length_cons,List.length_map,List.length_nil,Nat.add_mul,one_mul,zero_add] at count ⊢
  omega

theorem Sent.deliver (sent : Sent config net) (k : K) (e : Envelope K) : Sent config (net.deliver P config k e) := by
  obtain ⟨degree,count⟩ := sent
  obtain ⟨more,longer⟩ := receive_extends (P := P) (net.receivers k) (config.num_blocks k) e.sender e.channel e.msg
  have logs : ∀ j, (((net.deliver P config k e).receivers j).log.flatMap (outgoing j)).length =
      ((net.receivers j).log.flatMap (outgoing j)).length + if j = k then (more.flatMap (outgoing k)).length else 0 := by
    intro j
    by_cases own : j = k
    · subst own
      have here : (net.deliver P config j e).receivers j =
          (net.receivers j).receive P (config.num_blocks j) e.sender e.channel e.msg := by
        simp [Network.deliver]
      rw [here,longer,List.flatMap_append,List.length_append,if_pos rfl]
    · simp [Network.deliver,own]
  have added : (net.deliver P config k e).sent.length = net.sent.length + (more.flatMap (outgoing k)).length := by
    simp only [Network.deliver,longer,List.drop_left,List.length_append]
  refine ⟨degree,?_⟩
  rw [added,Finset.sum_congr rfl fun j _ => logs j,Finset.sum_add_distrib,Finset.sum_ite_eq']
  simp only [Finset.mem_univ,if_true]
  have same : (net.deliver P config k e).blocks = net.blocks := rfl
  rw [same]
  omega

theorem run_sent (ran : config.start.run P config actions = some net) : Sent config net := by
  refine Network.run_keeps P config (fun net action next sent stepped => ?_) ?_ ran
  · cases action with
    | propose => exact sent.propose stepped
    | deliver k i =>
      obtain ⟨_,_,_,_,rfl⟩ := Network.deliver_cases stepped
      exact sent.deliver k _
  · exact ⟨rfl,Nat.zero_le _⟩

/-- Receivers that agree with the proposer decode no block that was not proposed. -/
theorem agreed_within (agreed : Agreed net) (k : K) (n : Nat) (block : Block)
    (listed : .decoded n block ∈ (net.receivers k).log) : n < net.blocks.length := by
  have decoded : (n,block) ∈ decodes (net.receivers k).log := List.mem_filterMap.mpr ⟨_,listed,rfl⟩
  have few : (net.receivers k).decoded_count ≤ net.blocks.length := by
    rw [← agreed.counted k]
    simpa using (agreed.decoded k).length_le
  have numbered : n ∈ List.range (net.receivers k).decoded_count := by
    rw [← agreed.in_order k]
    exact List.mem_map.mpr ⟨_,decoded,rfl⟩
  have below := List.mem_range.mp numbered
  omega

/-- There is only so much in flight. -/
theorem run_traffic {Inv : σ → Prop} {used : σ → Bool → Nat} {limit : Nat} (budgeted : Budgeted K P Inv used limit)
    (inv : ∀ k, Inv (config.protocol k)) (ran : config.start.run P config actions = some net) (agreed : Agreed net) :
    net.sent.length ≤ traffic config limit net.blocks.length := by
  refine (run_sent ran).count.trans (Nat.add_le_add_left (Finset.sum_le_sum fun k _ => ?_) _)
  refine emitted_few ?_ (agreed_within agreed k) k
  rw [(run_posted ran).receivers k]
  exact (run_limited budgeted (inv k) (config.peers k) (config.mesh_degree k) (config.rng k) (config.num_blocks k) _).bounded

/-! ### Deliveries end -/

/-- Deliveries of what was not delivered, each once. -/
structure Fresh (actions more : List (Action K)) : Prop where
  nodup : more.Nodup
  new : ∀ action ∈ more, action ∉ actions
  deliveries : ∀ action ∈ more, action ≠ .propose

theorem run_append (ran : config.start.run P config actions = some net) (more : List (Action K)) :
    config.start.run P config (actions ++ more) = net.run P config more := by
  rw [Network.run,List.foldlM_append]
  rw [Network.run] at ran
  rw [ran]
  rfl

/-- A delivery proposes nothing. -/
theorem deliveries_blocks {more : List (Action K)} (deliveries : ∀ action ∈ more, action ≠ .propose) {last : Network σ K}
    (ran : net.run P config more = some last) : last.blocks = net.blocks := by
  induction more generalizing net with
  | nil =>
    obtain rfl := Option.some.inj ran
    rfl
  | cons action more ih =>
    rw [Network.run,List.foldlM_cons] at ran
    obtain ⟨middle,first,rest⟩ := Option.bind_eq_some_iff.mp ran
    rw [ih (fun other listed => deliveries other (List.mem_cons_of_mem _ listed)) rest]
    cases action with
    | propose => exact absurd rfl (deliveries _ List.mem_cons_self)
    | deliver k i =>
      obtain ⟨_,_,_,_,rfl⟩ := Network.deliver_cases first
      rfl

/-- Each receiver is handed each message once. -/
theorem fresh_few {more : List (Action K)} (fresh : Fresh actions more) (posted : Posted P config net (actions ++ more)) :
    more.length ≤ Fintype.card K * net.sent.length := by
  have inside : more.toFinset ⊆ (Finset.univ ×ˢ Finset.range net.sent.length).image (fun pair => .deliver pair.1 pair.2) := by
    intro action listed
    have member := List.mem_toFinset.mp listed
    cases action with
    | propose => exact absurd rfl (fresh.deliveries _ member)
    | deliver k i =>
      obtain ⟨e,found,_⟩ := posted.valid k i (List.mem_append_right _ member)
      have flying := (List.getElem?_eq_some_iff.mp found).1
      exact Finset.mem_image.mpr ⟨(k,i),Finset.mem_product.mpr ⟨Finset.mem_univ _,Finset.mem_range.mpr flying⟩,rfl⟩
  calc more.length = more.toFinset.card := (List.toFinset_card_of_nodup fresh.nodup).symm
    _ ≤ _ := Finset.card_le_card inside
    _ ≤ (Finset.univ ×ˢ Finset.range net.sent.length).card := Finset.card_image_le
    _ = Fintype.card K * net.sent.length := by rw [Finset.card_product,Finset.card_univ,Finset.card_range]

/-- Something can be delivered unless everything was. -/
theorem Fresh.longer {more : List (Action K)} (fresh : Fresh actions more) {last : Network σ K}
    (ran : net.run P config more = some last) (unsettled : ¬Settled config last (actions ++ more)) :
    ∃ action next, Fresh actions (more ++ [action]) ∧ net.run P config (more ++ [action]) = some next := by
  simp only [Settled,not_forall] at unsettled
  obtain ⟨i,e,k,found,receives,reaches,missing⟩ := unsettled
  rw [List.mem_append,not_or] at missing
  refine ⟨.deliver k i,last.deliver P config k e,⟨?_,fun action listed => ?_,fun action listed => ?_⟩,?_⟩
  · exact List.nodup_append.mpr ⟨fresh.nodup,List.nodup_singleton _,fun action listed other same alike => by
      obtain rfl := List.mem_singleton.mp same
      exact missing.2 (alike ▸ listed)⟩
  · rcases List.mem_append.mp listed with old | new
    · exact fresh.new action old
    · obtain rfl := List.mem_singleton.mp new
      exact missing.1
  · rcases List.mem_append.mp listed with old | new
    · exact fresh.deliveries action old
    · obtain rfl := List.mem_singleton.mp new
      rintro ⟨⟩
  · rw [Network.run] at ran ⊢
    rw [List.foldlM_append,ran]
    simp [Network.step,found,receives,reaches]

/-- Deliveries that are few in every order end with everything delivered. -/
theorem exists_settled {budget : Nat}
    (few : ∀ more last, Fresh actions more → net.run P config more = some last → more.length ≤ budget) :
    ∃ more last, Fresh actions more ∧ net.run P config more = some last ∧ Settled config last (actions ++ more) := by
  suffices from_here : ∀ left more last, Fresh actions more → net.run P config more = some last → budget ≤ more.length + left →
      ∃ more last, Fresh actions more ∧ net.run P config more = some last ∧ Settled config last (actions ++ more) from
    from_here budget [] net ⟨List.nodup_nil,by simp,by simp⟩ rfl (by simp)
  intro left
  induction left with
  | zero =>
    intro more last fresh ran spent
    by_cases settled : Settled config last (actions ++ more)
    · exact ⟨more,last,fresh,ran,settled⟩
    · obtain ⟨action,next,longer,goes⟩ := fresh.longer ran settled
      have within := few _ next longer goes
      rw [List.length_append,List.length_singleton] at within
      omega
  | succ left ih =>
    intro more last fresh ran spent
    by_cases settled : Settled config last (actions ++ more)
    · exact ⟨more,last,fresh,ran,settled⟩
    · obtain ⟨action,next,longer,goes⟩ := fresh.longer ran settled
      refine ih _ next longer goes ?_
      rw [List.length_append,List.length_singleton]
      omega

/-- There is only so much in flight, deliveries of it end in every order, and in some order with
    everything delivered. -/
structure ComesToRest (P : Protocol σ) (config : Config σ K) (limit : Nat) (net : Network σ K) (actions : List (Action K)) :
    Prop where
  bounded : net.sent.length ≤ traffic config limit net.blocks.length
  ends : ∀ more last, Fresh actions more → net.run P config more = some last →
    more.length ≤ Fintype.card K * traffic config limit net.blocks.length
  settles : ∃ more last, Fresh actions more ∧ net.run P config more = some last ∧ Settled config last (actions ++ more)

/-- A network in which receivers agree with the proposer comes to rest. -/
theorem run_rests {Inv : σ → Prop} {used : σ → Bool → Nat} {limit : Nat} (budgeted : Budgeted K P Inv used limit)
    (inv : ∀ k, Inv (config.protocol k))
    (agrees : ∀ actions net, config.start.run P config actions = some net → Agreed net)
    (ran : config.start.run P config actions = some net) : ComesToRest P config limit net actions := by
  have ends : ∀ more last, Fresh actions more → net.run P config more = some last →
      more.length ≤ Fintype.card K * traffic config limit net.blocks.length := by
    intro more last fresh goes
    have whole := (run_append ran more).trans goes
    have flying := run_traffic budgeted inv whole (agrees _ last whole)
    rw [deliveries_blocks fresh.deliveries goes] at flying
    exact (fresh_few fresh (run_posted whole)).trans (Nat.mul_le_mul_left _ flying)
  exact ⟨run_traffic budgeted inv ran (agrees _ net ran),ends,exists_settled ends⟩

end

/-! ### The protocols -/

/-- Nodes of a coded protocol start with sound decoders. -/
theorem ready_sound {σ K F : Type} [Field F] [DecidableEq F] {N m : Nat} {Context Proof : Type}
    {view : σ → CodedState F N Context Proof} {derive : Nat → Context} {config : Config σ K}
    (ready : Ready view derive m config) (k : K) : Sound (view (config.protocol k)).decoder := by
  rw [(ready k).decoder]
  exact BlockDecoder.sound_new

/-- From wherever a run has come to, the network comes to rest. -/
def AlwaysRests {σ : Type} (P : Protocol σ) (fresh : σ → Prop) (limit : Nat) (K : Type) [DecidableEq K] [SliceRandom]
    [Fintype K] : Prop :=
  ∀ config : Config σ K, (∀ k, fresh (config.protocol k)) → config.block_size ≤ MAX_TRANSACTIONS_BYTES →
    config.num_blocks config.source < 2 ^ 64 → ∀ actions net, config.start.run P config actions = some net →
    ComesToRest P config limit net actions

/-- No protocol keeps a network of finitely many nodes busy: a coded one sends at most `N - 1`
    batches for a block from each node, and the full-block one sends one. -/
theorem comes_to_rest (F G S PublicKey Signature G1 G2 K : Type) (N : Nat) [Field F] [DecidableEq F] [FixedCodec F]
    [LawfulScalar F] [Random F] [PackableField F] [LawfulPackable F] [FixedCodec UInt32] [FixedCodec UInt64] [BytesCodec]
    [RangedBlockCodec] [SliceRandom] [AddCommGroup G] [DecidableEq G] [Module F G] [Space F G] [HashToGroup G]
    [FixedCodec G] [Verifier PublicKey Signature] [Signer S PublicKey Signature] [FixedCodec Signature]
    [AddCommGroup G1] [Module F G1] [AddCommGroup G2] [Module F G2] [Space F G2] [HashToGroup G2] [PairingGroup G1 G2]
    [FixedCodec G2] [DecidableEq K] [Fintype K] (m : Nat) (proposer_pk : PublicKey) (bfkw_pk : G1) :
    AlwaysRests (PedersenProtocol.protocol F G S PublicKey Signature N)
      (fun s => ∃ signer, s = PedersenProtocol.new m proposer_pk signer) (N - 1) K ∧
    AlwaysRests (BfkwProtocol.protocol F G1 G2 N) (fun s => ∃ signer, s = BfkwProtocol.new m bfkw_pk signer) (N - 1) K ∧
    AlwaysRests BaselineProtocol.protocol (· = BaselineProtocol.new) 1 K := by
  refine ⟨fun config fresh small limited actions net ran => ?_,fun config fresh small limited actions net ran => ?_,
    fun config fresh small limited actions net ran => ?_⟩
  · have ready := pedersen_ready fresh
    exact run_rests (coded_budgeted K PedersenProtocol.coded) (ready_sound ready)
      (fun _ _ => run_agreed PedersenProtocol.coded PedersenProtocol.proposes (pedersen_total m proposer_pk) small limited ready)
      ran
  · have ready := bfkw_ready fresh
    exact run_rests (coded_budgeted K BfkwProtocol.coded) (ready_sound ready)
      (fun _ _ => run_agreed BfkwProtocol.coded BfkwProtocol.proposes (bfkw_total m bfkw_pk) small limited ready) ran
  · refine run_rests (baseline_budgeted K) (fun _ => trivial) (fun actions net ran => ?_) ran
    exact (Broadcast.run_relayed (small.trans_lt (by decide)) limited fresh ran).agreed limited

section
open Rlnc.Scalars Rlnc.Reference

private def baseline_three : Config BaselineProtocol (Option Bool) := three_nodes fun _ => BaselineProtocol.new

/-- An announcement and a packet for each receiver are in flight. -/
theorem comes_to_rest_three :
    (∃ net, pedersen_three.start.run (PedersenProtocol.protocol Scalar Scalar Bytes Bytes UInt64 2) pedersen_three [.propose] =
      some net ∧ net.sent.length = 3 ∧
      ComesToRest (PedersenProtocol.protocol Scalar Scalar Bytes Bytes UInt64 2) pedersen_three 1 net [.propose]) ∧
    (∃ net, bfkw_three.start.run (BfkwProtocol.protocol Scalar Scalar Scalar 2) bfkw_three [.propose] = some net ∧
      net.sent.length = 3 ∧ ComesToRest (BfkwProtocol.protocol Scalar Scalar Scalar 2) bfkw_three 1 net [.propose]) ∧
    ∃ net, baseline_three.start.run BaselineProtocol.protocol baseline_three [.propose] = some net ∧ net.sent.length = 3 ∧
      ComesToRest BaselineProtocol.protocol baseline_three 1 net [.propose] := by
  obtain ⟨pedersen,bfkw,baseline⟩ := comes_to_rest Scalar Scalar Bytes Bytes UInt64 Scalar Scalar (Option Bool) 2 2 [7] (scalar 3)
  have first : (pedersen_three.start.run (PedersenProtocol.protocol Scalar Scalar Bytes Bytes UInt64 2) pedersen_three
      [.propose]).map (fun net => net.sent.length) = some 3 := by decide +kernel
  have second : (bfkw_three.start.run (BfkwProtocol.protocol Scalar Scalar Scalar 2) bfkw_three
      [.propose]).map (fun net => net.sent.length) = some 3 := by decide +kernel
  have third : (baseline_three.start.run BaselineProtocol.protocol baseline_three [.propose]).map
      (fun net => net.sent.length) = some 3 := by decide +kernel
  obtain ⟨net,ran,flying⟩ := Option.map_eq_some_iff.mp first
  obtain ⟨net',ran',flying'⟩ := Option.map_eq_some_iff.mp second
  obtain ⟨net'',ran'',flying''⟩ := Option.map_eq_some_iff.mp third
  exact ⟨⟨net,ran,flying,pedersen pedersen_three (fun _ => ⟨_,rfl⟩) (Nat.zero_le _) (by decide) _ net ran⟩,
    ⟨net',ran',flying',bfkw bfkw_three (fun _ => ⟨_,rfl⟩) (Nat.zero_le _) (by decide) _ net' ran'⟩,
    net'',ran'',flying'',baseline baseline_three (fun _ => rfl) (Nat.zero_le _) (by decide) _ net'' ran''⟩

end

/-! ### Coded blocks at rest -/

section
variable {σ K : Type} [DecidableEq K] [SliceRandom] {P : Protocol σ} {config : Config σ K} {net : Network σ K}
  {actions : List (Action K)}

/-- What was sent to a node. -/
def sent_to (net : Network σ K) (k : K) : List (K × Channel × Bytes) :=
  (net.sent.filter fun e => e.Reaches k).map fun e => (e.sender,e.channel,e.msg)

/-- At rest a receiver was handed just what was sent to it. -/
theorem settled_handed (posted : Posted P config net actions) (settled : Settled config net actions) {k : K}
    (receives : k ≠ config.source) (message : K × Channel × Bytes) :
    message ∈ handed net.sent k actions ↔ message ∈ sent_to net k := by
  rw [mem_handed]
  constructor
  · rintro ⟨i,e,member,found,rfl⟩
    obtain ⟨e',found',reaches⟩ := posted.valid k i member
    obtain rfl := Option.some.inj (found.symm.trans found')
    exact List.mem_map.mpr ⟨e,List.mem_filter.mpr ⟨List.mem_of_getElem? found,decide_eq_true reaches⟩,rfl⟩
  · intro sent
    obtain ⟨e,listed,rfl⟩ := List.mem_map.mp sent
    obtain ⟨flying,reaches⟩ := List.mem_filter.mp listed
    obtain ⟨i,found⟩ := List.mem_iff_getElem?.mp flying
    exact ⟨i,e,settled i e k found receives (of_decide_eq_true reaches),found,rfl⟩

theorem arrived_same {messages others : List (K × Channel × Bytes)} (same : ∀ message, message ∈ messages ↔ message ∈ others)
    (item : Item) : item ∈ arrived messages ↔ item ∈ arrived others := by
  simp only [arrived,List.mem_map,List.mem_filterMap,same]

theorem settled_iff : Settled config net actions ↔ ∀ entry ∈ net.sent.zipIdx, ∀ k, k ≠ config.source → entry.1.Reaches k →
    .deliver k entry.2 ∈ actions := by
  constructor
  · rintro settled ⟨e,i⟩ listed k receives reaches
    exact settled i e k (List.mk_mem_zipIdx_iff_getElem?.mp listed) receives reaches
  · intro every i e k found receives reaches
    exact every (e,i) (List.mk_mem_zipIdx_iff_getElem?.mpr found) k receives reaches

instance [Fintype K] : Decidable (Settled config net actions) := decidable_of_iff' _ settled_iff

end

section
variable {F : Type} [Field F] [DecidableEq F] {N m : Nat} {Context Proof Error : Type} [FixedCodec F] [IntegrityProof Proof]
  [Random F] [PackableField F] [FixedCodec UInt64] [BytesCodec] {σ K : Type} [DecidableEq K] [SliceRandom]
  {S : IntegrityScheme F N Context Proof Error} {derive : Nat → Context} {P : Protocol σ}
  {view : σ → CodedState F N Context Proof} {config : Config σ K} {net : Network σ K} {actions : List (Action K)}

/-- Neither order nor repetition changes what some payloads span. -/
theorem delivered_span_same {n : Nat} {datas others : List Bytes} (same : ∀ data, data ∈ datas ↔ data ∈ others) :
    delivered_span S derive m n datas = delivered_span S derive m n others := by
  simp only [delivered_span,same]

/-- At rest a receiver has decoded the blocks up to the first one of which it was not sent enough. -/
theorem coded_at_rest (coded : Coded P S view) (proposes : Proposes P view) (positive : 0 < m) (some_chunk : 0 < N)
    (ready : Ready view derive m config) (limited : config.num_blocks config.source < 2 ^ 64)
    (ran : config.start.run P config actions = some net) (agreed : Agreed net) (settled : Settled config net actions) {k : K}
    (receives : k ≠ config.source) {j : Nat} (inside : j ≤ config.num_blocks k) (proposed : j ≤ net.blocks.length) :
    j ≤ (net.receivers k).decoded_count ↔
      ∀ n < j, delivered_span S derive m n (InOrder.payloads .Data n (arrived (sent_to net k))) = ⊤ := by
  have posted := run_posted ran
  have announced := run_announced (fun _ _ _ _ _ _ _ payloads => by
    obtain ⟨_,_,_,_,length,_⟩ := proposes.propose _ _ _ _ _ _ _ payloads
    rw [length]
    exact (to_be_length 8 _).ge) ran
  have exactly : j ≤ (net.receivers k).decoded_count ↔ ∀ n < j, Solvable (fun _ datas => ∃ data ∈ datas, 8 ≤ data.length)
      (fun n datas => delivered_span S derive m n datas = ⊤) (arrived (handed net.sent k actions)) n := by
    have alive := agreed.alive k
    rw [posted.receivers k] at alive ⊢
    exact (coded_measured coded positive some_chunk).receive_all (ready k) _ _ _ alive inside
  rw [exactly]
  refine forall₂_congr fun n before => ?_
  have same : delivered_span S derive m n (InOrder.payloads .Data n (arrived (handed net.sent k actions))) =
      delivered_span S derive m n (InOrder.payloads .Data n (arrived (sent_to net k))) :=
    delivered_span_same fun data => by
      rw [mem_payloads,mem_payloads]
      exact arrived_same (settled_handed posted settled receives) _
  obtain ⟨payload,flying,long⟩ := announced.sent n (by omega)
  have small : n < 2 ^ 64 := by
    have count := announced.count
    omega
  have came := settled.arrives flying receives ⟨receives,.inl rfl⟩
  have heard := mem_payloads.mpr (mem_arrived small came)
  rw [Solvable,same]
  exact and_iff_right ⟨payload,heard,long⟩

end

/-- In every run that is at rest each receiver has decoded, of the proposed blocks that it waits for,
    just those before the first one of which it was not sent enough. -/
def RestsExactly {σ : Type} (P : Protocol σ) (fresh : σ → Prop) (Fills : Nat → List Bytes → Prop) (K : Type)
    [DecidableEq K] [SliceRandom] : Prop :=
  ∀ config : Config σ K, (∀ k, fresh (config.protocol k)) → config.block_size ≤ MAX_TRANSACTIONS_BYTES →
    config.num_blocks config.source < 2 ^ 64 → ∀ actions net, config.start.run P config actions = some net →
    Settled config net actions → ∀ k, k ≠ config.source → ∀ j ≤ config.num_blocks k, j ≤ net.blocks.length →
      (j ≤ (net.receivers k).decoded_count ↔ ∀ n < j, Fills n (InOrder.payloads .Data n (arrived (sent_to net k))))

/-- At rest the coded protocols have made of what was sent all that can be made of it, whatever the
    order in which it came. -/
theorem rests_exactly (F G S PublicKey Signature G1 G2 K : Type) (N : Nat) [Field F] [DecidableEq F] [FixedCodec F]
    [LawfulScalar F] [Random F] [PackableField F] [LawfulPackable F] [FixedCodec UInt32] [FixedCodec UInt64] [BytesCodec]
    [LawfulBlockCodec] [SliceRandom] [AddCommGroup G] [DecidableEq G] [Module F G] [Space F G] [HashToGroup G]
    [FixedCodec G] [Verifier PublicKey Signature] [Signer S PublicKey Signature] [FixedCodec Signature]
    [AddCommGroup G1] [Module F G1] [AddCommGroup G2] [Module F G2] [Space F G2] [HashToGroup G2] [PairingGroup G1 G2]
    [FixedCodec G2] [DecidableEq K] (m : Nat) (positive : 0 < m) (some_chunk : 0 < N) (proposer_pk : PublicKey)
    (bfkw_pk : G1) :
    RestsExactly (PedersenProtocol.protocol F G S PublicKey Signature N)
      (fun s => ∃ signer, s = PedersenProtocol.new m proposer_pk signer)
      (fun n datas =>
        delivered_span (PedersenScheme F G PublicKey Signature N) (canonical_context m proposer_pk) m n datas = ⊤) K ∧
    RestsExactly (BfkwProtocol.protocol F G1 G2 N) (fun s => ∃ signer, s = BfkwProtocol.new m bfkw_pk signer)
      (fun n datas => delivered_span (BfkwScheme F G1 G2 N) (Agreement.number_context N m bfkw_pk) m n datas = ⊤) K := by
  constructor
  · intro config fresh small limited actions net ran settled k receives j inside proposed
    have ready := pedersen_ready fresh
    have agreed := run_agreed PedersenProtocol.coded PedersenProtocol.proposes (pedersen_total m proposer_pk) small limited ready
      ran
    exact coded_at_rest PedersenProtocol.coded PedersenProtocol.proposes positive some_chunk ready limited ran agreed settled
      receives inside proposed
  · intro config fresh small limited actions net ran settled k receives j inside proposed
    have ready := bfkw_ready fresh
    have agreed := run_agreed BfkwProtocol.coded BfkwProtocol.proposes (bfkw_total m bfkw_pk) small limited ready ran
    exact coded_at_rest BfkwProtocol.coded BfkwProtocol.proposes positive some_chunk ready limited ran agreed settled receives
      inside proposed

section
open Rlnc.Scalars Rlnc.Reference

/-- What was sent to each receiver, by the proposer and by the other one, is enough for the block that it decoded. -/
theorem rests_exactly_three :
    (∃ net, pedersen_three.start.run (PedersenProtocol.protocol Scalar Scalar Bytes Bytes UInt64 2) pedersen_three
        passed_around = some net ∧ ∀ k, k ≠ none → (net.receivers k).decoded_count = 1 ∧
      delivered_span (PedersenScheme Scalar Scalar Bytes UInt64 2) (canonical_context 2 [7]) 2 0
        (InOrder.payloads .Data 0 (arrived (sent_to net k))) = ⊤) ∧
    ∃ net, bfkw_three.start.run (BfkwProtocol.protocol Scalar Scalar Scalar 2) bfkw_three passed_around = some net ∧
      ∀ k, k ≠ none → (net.receivers k).decoded_count = 1 ∧
      delivered_span (BfkwScheme Scalar Scalar Scalar 2) (Agreement.number_context 2 2 (scalar 3)) 2 0
        (InOrder.payloads .Data 0 (arrived (sent_to net k))) = ⊤ := by
  obtain ⟨pedersen,bfkw⟩ := rests_exactly Scalar Scalar Bytes Bytes UInt64 Scalar Scalar (Option Bool) 2 2 (by decide) (by decide)
    [7] (scalar 3)
  have first : (pedersen_three.start.run (PedersenProtocol.protocol Scalar Scalar Bytes Bytes UInt64 2) pedersen_three
      passed_around).map (fun net => decide (1 ≤ net.blocks.length ∧ (∀ k, k ≠ none → (net.receivers k).decoded_count = 1) ∧
        Settled pedersen_three net passed_around)) = some true := by decide +kernel
  have second : (bfkw_three.start.run (BfkwProtocol.protocol Scalar Scalar Scalar 2) bfkw_three
      passed_around).map (fun net => decide (1 ≤ net.blocks.length ∧ (∀ k, k ≠ none → (net.receivers k).decoded_count = 1) ∧
        Settled bfkw_three net passed_around)) = some true := by decide +kernel
  obtain ⟨net,ran,seen⟩ := Option.map_eq_some_iff.mp first
  obtain ⟨net',ran',seen'⟩ := Option.map_eq_some_iff.mp second
  obtain ⟨one,count,settled⟩ := of_decide_eq_true seen
  obtain ⟨one',count',settled'⟩ := of_decide_eq_true seen'
  refine ⟨⟨net,ran,fun k receives => ⟨count k receives,?_⟩⟩,net',ran',fun k receives => ⟨count' k receives,?_⟩⟩
  · exact (pedersen pedersen_three (fun _ => ⟨_,rfl⟩) (Nat.zero_le _) (by decide) _ net ran settled k receives 1 le_rfl one).mp
      (count k receives).ge 0 Nat.one_pos
  · exact (bfkw bfkw_three (fun _ => ⟨_,rfl⟩) (Nat.zero_le _) (by decide) _ net' ran' settled' k receives 1 le_rfl one').mp
      (count' k receives).ge 0 Nat.one_pos

end

/-! ### Everyone decodes full blocks -/

section
variable [FixedCodec UInt32] [FixedCodec UInt64] [BytesCodec] [RangedBlockCodec] {K : Type} [DecidableEq K] [SliceRandom]
  [LawfulSliceRandom] [Fintype K] {config : Config BaselineProtocol K} {net : Network BaselineProtocol K}
  {actions : List (Action K)}

/-- The receivers that the links lead to have decoded just these blocks. -/
def Delivered (config : Config BaselineProtocol K) (blocks : List Block) (net : Network BaselineProtocol K) : Prop :=
  ∀ k, Linked config k → k ≠ config.source →
    (net.receivers k).panicked = none ∧ decodes (net.receivers k).log = (List.range blocks.length).zip blocks

/-- Nothing is left to deliver. -/
def Exhausted {σ : Type} (P : Protocol σ) (config : Config σ K) (net : Network σ K) (actions more : List (Action K)) : Prop :=
  ∀ action, Fresh actions (more ++ [action]) → net.run P config (more ++ [action]) = none

/-- From wherever a run has come to, deliveries alone, in whatever order, end with every linked
    receiver having decoded what was proposed. -/
theorem everyone_decodes (fits : config.block_size ≤ MAX_TRANSACTIONS_BYTES)
    (limited : config.num_blocks config.source < 2 ^ 64) (fresh : ∀ k, config.protocol k = BaselineProtocol.new)
    (wide : ∀ k, (config.peers k).length ≤ config.mesh_degree k)
    (waits : ∀ k, config.num_blocks config.source ≤ config.num_blocks k)
    (ran : config.start.run BaselineProtocol.protocol config actions = some net) :
    (∀ more last, Fresh actions more → net.run BaselineProtocol.protocol config more = some last →
      more.length ≤ Fintype.card K * traffic config 1 net.blocks.length ∧
      (Exhausted BaselineProtocol.protocol config net actions more → Delivered config net.blocks last)) ∧
    ∃ more last, Fresh actions more ∧ net.run BaselineProtocol.protocol config more = some last ∧
      Delivered config net.blocks last := by
  have agrees : ∀ actions net, config.start.run BaselineProtocol.protocol config actions = some net → Agreed net :=
    fun actions net ran => (Broadcast.run_relayed (fits.trans_lt (by decide)) limited fresh ran).agreed limited
  have rests := run_rests (baseline_budgeted K) (fun _ => trivial) agrees ran
  have delivered : ∀ more last, Fresh actions more → net.run BaselineProtocol.protocol config more = some last →
      Settled config last (actions ++ more) → Delivered config net.blocks last := by
    intro more last new goes settled k linked receives
    have whole := (run_append ran more).trans goes
    rw [← deliveries_blocks new.deliveries goes]
    exact settled_delivers fits limited fresh wide waits whole settled linked receives
  refine ⟨fun more last new goes => ⟨rests.ends more last new goes,fun exhausted => ?_⟩,?_⟩
  · refine delivered more last new goes ?_
    by_contra unsettled
    obtain ⟨action,next,longer,goes_on⟩ := new.longer goes unsettled
    rw [exhausted action longer] at goes_on
    cases goes_on
  · obtain ⟨more,last,new,goes,settled⟩ := rests.settles
    exact ⟨more,last,new,goes,delivered more last new goes settled⟩

end

section
open Rlnc.Reference

/-- The proposer is linked to a receiver, and this one to another. -/
private def chained : Config BaselineProtocol (Option Bool) :=
  ⟨none,fun _ => BaselineProtocol.new,fun k => if k = some false then [none,some true] else [some false],fun _ => 2,
    fun _ => Stream'.const 1,fun _ => 1,3⟩

theorem everyone_decodes_three :
    ∃ net, chained.start.run BaselineProtocol.protocol chained [.propose] = some net ∧ net.blocks.length = 1 ∧
      ∃ more last, Fresh [.propose] more ∧ net.run BaselineProtocol.protocol chained more = some last ∧
        decodes (last.receivers (some true)).log = [0].zip net.blocks := by
  have seen : (chained.start.run BaselineProtocol.protocol chained [.propose]).map (fun net => net.blocks.length) = some 1 := by
    decide +kernel
  obtain ⟨net,ran,one⟩ := Option.map_eq_some_iff.mp seen
  have linked : Linked chained (some true) :=
    .tail (.single (by decide : some false ∈ chained.peers none)) (by decide : some true ∈ chained.peers (some false))
  obtain ⟨more,last,new,goes,delivered⟩ :=
    (everyone_decodes (by decide) (by decide) (fun _ => rfl) (by decide) (by decide) ran).2
  have decoded := (delivered (some true) linked (by decide)).2
  rw [one] at decoded
  exact ⟨net,ran,one,more,last,new,goes,decoded⟩

end

end Rlnc.Quiescence
