import Rlnc.Runs

/-!
A reference for the receiver that handles the blocks in order, one at a time: it feeds
a block its announcements, then its data packets, and sees nothing of the order in
which messages of different blocks arrive (`in_order`, `in_order_congr`). It hands over
the messages of each block in their order and none twice (`in_order_accounted`).
-/
namespace Rlnc.InOrder
open Rlnc.Panics Rlnc.Wire Rlnc.Draws Rlnc.Blocks Rlnc.Protocols Rlnc.Actor Rlnc.Runs
set_option linter.unusedSectionVars false

/-- The payloads of one channel and block, in arrival order. -/
def payloads (channel : Channel) (n : Nat) (items : List Item) : List Bytes :=
  (items.filter (fun item => item.1 = channel ∧ item.2.1 = n)).map (fun item => item.2.2)

section
variable {channel channel' : Channel} {n n' : Nat} {data : Bytes} {items : List Item}

@[simp] theorem payloads_nil : payloads channel n [] = [] := rfl

@[simp] theorem payloads_append (items items' : List Item) :
    payloads channel n (items ++ items') = payloads channel n items ++ payloads channel n items' := by
  simp [payloads]

theorem payloads_cons (channel' : Channel) (n' : Nat) (data : Bytes) (items : List Item) :
    payloads channel n ((channel',n',data) :: items) =
      if channel' = channel ∧ n' = n then data :: payloads channel n items else payloads channel n items := by
  unfold payloads
  by_cases same : channel' = channel ∧ n' = n
  · simp [same]
  · simp [same]

@[simp] theorem payloads_here : payloads channel n ((channel,n,data) :: items) = data :: payloads channel n items := by
  simp [payloads_cons]

theorem payloads_other (other : n' ≠ n ∨ channel' ≠ channel) :
    payloads channel n ((channel',n',data) :: items) = payloads channel n items := by
  rw [payloads_cons,if_neg (by tauto)]

theorem payloads_none (none : ∀ item ∈ items, ¬(item.1 = channel ∧ item.2.1 = n)) : payloads channel n items = [] := by
  simpa [payloads] using none

theorem payloads_removed (items : List Item) :
    payloads channel n (items.filter (fun item => item.2.1 ≠ n')) = if n = n' then [] else payloads channel n items := by
  unfold payloads
  rw [List.filter_filter]
  by_cases same : n = n'
  · subst same
    simp
  · rw [if_neg same]
    congr 1
    apply List.filter_congr
    rintro ⟨c,k,d⟩ _
    by_cases here : c = channel ∧ k = n
    · obtain ⟨rfl,rfl⟩ := here
      simp [same]
    · simp [here]

theorem payloads_on_channel (items : List Item) :
    payloads channel n (on_channel channel' (items.filter (fun item => item.2.1 = n'))) =
      if channel' = channel ∧ n' = n then payloads channel n items else [] := by
  unfold payloads on_channel
  rw [List.filter_filter,List.filter_filter]
  by_cases same : channel' = channel ∧ n' = n
  · obtain ⟨rfl,rfl⟩ := same
    rw [if_pos ⟨rfl,rfl⟩]
    congr 1
    apply List.filter_congr
    rintro ⟨c,k,d⟩ _
    simp only [Bool.decide_and]
    cases decide (c = channel') <;> cases decide (k = n') <;> rfl
  · rw [if_neg same]
    simp only [List.map_eq_nil_iff,List.filter_eq_nil_iff]
    rintro ⟨c,k,d⟩ _
    simp
    rintro rfl rfl rfl rfl
    exact same ⟨rfl,rfl⟩

end

/-! ### The reference -/

/-- How far the blocks are handled: the phase and state of the current one, the decoded
    ones, and what was handed to the protocol. -/
structure Progress (σ : Type) where
  state : ActorState
  protocol : σ
  decoded_count : Nat
  blocks : List (Nat × Block)
  ingested : List Item

/-- The progress after a message was handed over. -/
def Progress.hear {σ : Type} (progress : Progress σ) (channel : Channel) (n : Nat) (data : Bytes) (protocol : σ) : Progress σ :=
  { progress with protocol, ingested := progress.ingested ++ [(channel,n,data)] }

def accepted : Except String Bool → Bool
  | .ok true => true
  | _ => false

section
variable {σ : Type} (P : Protocol σ)

/-- Hand over payloads until one is accepted and leaves the protocol `done`. -/
def feed_until (channel : Channel) (n : Nat) (done : σ → Bool) (progress : Progress σ) :
    List Bytes → Rust (Bool × Progress σ)
  | [] => .ok (false,progress)
  | data :: later => do
    let (protocol,r) ← P.ingest progress.protocol channel n data
    let progress := progress.hear channel n data protocol
    if accepted r && done protocol then return (true,progress) else feed_until channel n done progress later

/-- Decode the block and go on to the next number. -/
def advance (n : Nat) (progress : Progress σ) : Rust (Progress σ) := do
  let (block,protocol) ← P.decode progress.protocol
  if 2 ^ 64 ≤ progress.decoded_count + 1 ∨ 2 ^ 64 ≤ n + 1 then throw .overflow
  return ⟨.Init (n + 1),P.reset protocol,progress.decoded_count + 1,progress.blocks ++ [(n,block)],progress.ingested⟩

/-- The data packets of a block until it is complete, and what comes after it. -/
def decode_block (n : Nat) (packets : List Bytes) (next : Progress σ → Rust (Progress σ)) (progress : Progress σ) :
    Rust (Progress σ) := do
  let (found,progress) ← feed_until P .Data n P.is_complete progress packets
  if found then (advance P n progress) >>= next else return progress

/-- A block from its announcement on. -/
def handle_block (n : Nat) (announcements packets : List Bytes) (next : Progress σ → Rust (Progress σ))
    (progress : Progress σ) : Rust (Progress σ) := do
  let (found,progress) ← feed_until P .Announce n (fun _ => true) progress announcements
  if found then decode_block P n packets next { progress with state := .Decoding n } else return progress

/-- At most `fuel` blocks from block `n` on. -/
def handle (arrivals : List Item) : Nat → Nat → Progress σ → Rust (Progress σ)
  | 0, _, progress => .ok progress
  | fuel + 1, n, progress =>
    handle_block P n (payloads .Announce n arrivals) (payloads .Data n arrivals) (handle arrivals fuel (n + 1)) progress

/-- All blocks from block `n` on; no more of them are announced than there are messages. -/
def in_order (arrivals : List Item) (n : Nat) (progress : Progress σ) : Rust (Progress σ) :=
  handle P arrivals (arrivals.length + 1) n progress

/-- The reference starts with block zero. -/
def reference (protocol : σ) (arrivals : List Item) : Rust (Progress σ) :=
  in_order P arrivals 0 ⟨.Init 0,protocol,0,[],[]⟩

variable {P}

@[simp] theorem feed_until_nil (channel : Channel) (n : Nat) (done : σ → Bool) (progress : Progress σ) :
    feed_until P channel n done progress [] = .ok (false,progress) := rfl

theorem feed_until_cons (channel : Channel) (n : Nat) (done : σ → Bool) (progress : Progress σ) (data : Bytes)
    (later : List Bytes) :
    feed_until P channel n done progress (data :: later) = P.ingest progress.protocol channel n data >>= fun r =>
      if accepted r.2 && done r.1 then .ok (true,progress.hear channel n data r.1)
      else feed_until P channel n done (progress.hear channel n data r.1) later := rfl

theorem handle_block_nil (n : Nat) (packets : List Bytes) (next : Progress σ → Rust (Progress σ)) (progress : Progress σ) :
    handle_block P n [] packets next progress = .ok progress := rfl

theorem decode_block_nil (n : Nat) (next : Progress σ → Rust (Progress σ)) (progress : Progress σ) :
    decode_block P n [] next progress = .ok progress := rfl

theorem handle_block_cons (n : Nat) (data : Bytes) (announcements packets : List Bytes)
    (next : Progress σ → Rust (Progress σ)) (progress : Progress σ) :
    handle_block P n (data :: announcements) packets next progress =
      P.ingest progress.protocol .Announce n data >>= fun r =>
        if accepted r.2 then decode_block P n packets next { progress.hear .Announce n data r.1 with state := .Decoding n }
        else handle_block P n announcements packets next (progress.hear .Announce n data r.1) := by
  simp only [handle_block,feed_until_cons,bind_assoc]
  congr 1
  funext r
  cases known : accepted r.2 <;> rfl

theorem decode_block_cons (n : Nat) (data : Bytes) (packets : List Bytes) (next : Progress σ → Rust (Progress σ))
    (progress : Progress σ) :
    decode_block P n (data :: packets) next progress =
      P.ingest progress.protocol .Data n data >>= fun r =>
        if accepted r.2 && P.is_complete r.1 then (advance P n (progress.hear .Data n data r.1)) >>= next
        else decode_block P n packets next (progress.hear .Data n data r.1) := by
  simp only [decode_block,feed_until_cons,bind_assoc]
  congr 1
  funext r
  cases known : accepted r.2 && P.is_complete r.1 <;> rfl

theorem advance_ok {n : Nat} {progress : Progress σ} {block : Block} {protocol : σ}
    (decoded : P.decode progress.protocol = .ok (block,protocol)) (counted : progress.decoded_count + 1 < 2 ^ 64)
    (more : n + 1 < 2 ^ 64) :
    advance P n progress = .ok
      ⟨.Init (n + 1),P.reset protocol,progress.decoded_count + 1,progress.blocks ++ [(n,block)],progress.ingested⟩ := by
  simp only [advance,decoded,ok_bind]
  rw [if_neg (by omega)]
  rfl

theorem advance_overflows {n : Nat} {progress : Progress σ} {block : Block} {protocol : σ}
    (decoded : P.decode progress.protocol = .ok (block,protocol))
    (last : 2 ^ 64 ≤ progress.decoded_count + 1 ∨ 2 ^ 64 ≤ n + 1) : advance P n progress = .error .overflow := by
  simp only [advance,decoded,ok_bind]
  rw [if_pos last]
  rfl

theorem advance_ok_keeps {n : Nat} {progress next : Progress σ} (ran : advance P n progress = .ok next) :
    next.state = .Init (n + 1) ∧ next.ingested = progress.ingested := by
  simp only [advance,bind_ok] at ran
  obtain ⟨⟨block,protocol⟩,_,ran⟩ := ran
  simp only at ran
  split at ran
  · cases ran
  · obtain rfl := Except.ok.inj ran
    exact ⟨rfl,rfl⟩

/-- The messages from block `n` on decide what is done from there. -/
theorem handle_congr {arrivals arrivals' : List Item} (fuel n : Nat) (progress : Progress σ)
    (same : ∀ channel k, n ≤ k → payloads channel k arrivals = payloads channel k arrivals') :
    handle P arrivals fuel n progress = handle P arrivals' fuel n progress := by
  induction fuel generalizing n progress with
  | zero => rfl
  | succ fuel ih =>
    have later : handle P arrivals fuel (n + 1) = handle P arrivals' fuel (n + 1) := by
      funext progress
      exact ih (n + 1) progress (fun channel k from_next => same channel k (by omega))
    simp only [handle,same _ n le_rfl,later]

/-- The messages from block `n` on. -/
def from_block (n : Nat) (arrivals : List Item) : Nat := arrivals.countP (fun item => n ≤ item.2.1)

theorem from_block_succ (n : Nat) (arrivals : List Item) :
    from_block n arrivals = from_block (n + 1) arrivals + arrivals.countP (fun item => item.2.1 = n) := by
  unfold from_block
  induction arrivals with
  | nil => rfl
  | cons item arrivals ih =>
    simp only [List.countP_cons,ih,decide_eq_true_eq]
    split <;> split <;> split <;> omega

theorem from_block_next {n : Nat} {arrivals : List Item} (some_message : payloads .Announce n arrivals ≠ []) :
    from_block (n + 1) arrivals < from_block n arrivals := by
  have split := from_block_succ n arrivals
  have some_here : 0 < arrivals.countP (fun item => item.2.1 = n) := by
    rw [List.countP_pos_iff]
    by_contra none
    exact some_message (payloads_none (fun item member same => none ⟨item,member,by simpa using same.2⟩))
  omega

/-- A round for each message is enough. -/
theorem handle_enough (arrivals : List Item) (fuel fuel' n : Nat) (progress : Progress σ)
    (enough : from_block n arrivals < fuel) (enough' : from_block n arrivals < fuel') :
    handle P arrivals fuel n progress = handle P arrivals fuel' n progress := by
  induction fuel generalizing fuel' n progress with
  | zero => omega
  | succ fuel ih =>
    obtain ⟨fuel',rfl⟩ : ∃ k, fuel' = k + 1 := ⟨fuel' - 1,by omega⟩
    by_cases empty : payloads .Announce n arrivals = []
    · simp only [handle,empty,handle_block_nil]
    · have less := from_block_next empty
      have later : handle P arrivals fuel (n + 1) = handle P arrivals fuel' (n + 1) := by
        funext progress
        exact ih fuel' (n + 1) progress (by omega) (by omega)
      simp only [handle,later]

theorem in_order_eq (arrivals : List Item) (n : Nat) (progress : Progress σ) :
    in_order P arrivals n progress =
      handle_block P n (payloads .Announce n arrivals) (payloads .Data n arrivals) (in_order P arrivals (n + 1)) progress := by
  by_cases empty : payloads .Announce n arrivals = []
  · simp only [in_order,handle,empty,handle_block_nil]
  · have less := from_block_next empty
    have bounded : from_block n arrivals ≤ arrivals.length := List.countP_le_length
    have later : handle P arrivals arrivals.length (n + 1) = in_order P arrivals (n + 1) := by
      funext progress
      exact handle_enough arrivals _ _ (n + 1) progress (by omega) (by omega)
    rw [in_order,handle,later]

theorem in_order_congr {arrivals arrivals' : List Item} (n : Nat)
    (same : ∀ channel k, n ≤ k → payloads channel k arrivals = payloads channel k arrivals') :
    in_order P arrivals n = in_order P arrivals' n := by
  funext progress
  have bounded : from_block n arrivals ≤ arrivals.length := List.countP_le_length
  have bounded' : from_block n arrivals' ≤ arrivals'.length := List.countP_le_length
  have first := handle_enough (P := P) arrivals (arrivals.length + 1) (arrivals.length + arrivals'.length + 1) n progress
    (by omega) (by omega)
  have last := handle_enough (P := P) arrivals' (arrivals.length + arrivals'.length + 1) (arrivals'.length + 1) n progress
    (by omega) (by omega)
  exact (first.trans (handle_congr _ n progress same)).trans last

end

/-! ### What the reference hands over -/

/-- Of each block the first messages of each channel were handed over, of the block that is
    waited for all announcements, of the one that is decoded all data packets, and nothing
    of a later one. -/
structure Accounted {σ : Type} (arrivals : List Item) (progress : Progress σ) : Prop where
  each : ∀ channel n, payloads channel n progress.ingested <+: payloads channel n arrivals
  waiting : ∀ n, progress.state = .Init n →
    payloads .Announce n progress.ingested = payloads .Announce n arrivals ∧ payloads .Data n progress.ingested = []
  working : ∀ n, progress.state = .Decoding n → payloads .Data n progress.ingested = payloads .Data n arrivals
  later : ∀ channel k, progress.state.current_block < k → payloads channel k progress.ingested = []

section
variable {σ : Type} {P : Protocol σ}

theorem payloads_of_channel (channel : Channel) (n : Nat) (datas : List Bytes) :
    payloads channel n (datas.map (fun data => (channel,n,data))) = datas := by
  induction datas with
  | nil => rfl
  | cons data datas ih => rw [List.map_cons,payloads_here,ih]

theorem payloads_of_other {channel channel' : Channel} {n n' : Nat} (other : n' ≠ n ∨ channel' ≠ channel) (datas : List Bytes) :
    payloads channel n (datas.map (fun data => (channel',n',data))) = [] := by
  refine payloads_none fun item member same => ?_
  obtain ⟨data,_,rfl⟩ := List.mem_map.mp member
  exact other.elim (absurd same.2) (absurd same.1)

/-- What is handed over is a first part of what there is, and all of it when nothing was found. -/
theorem feed_until_ok {channel : Channel} {n : Nat} {done : σ → Bool} {progress progress' : Progress σ}
    {datas : List Bytes} {found : Bool} (ran : feed_until P channel n done progress datas = .ok (found,progress')) :
    ∃ taken rest protocol, datas = taken ++ rest ∧ (found = false → rest = []) ∧ progress' =
      { progress with protocol, ingested := progress.ingested ++ taken.map (fun data => (channel,n,data)) } := by
  induction datas generalizing progress with
  | nil =>
    obtain ⟨rfl,rfl⟩ := ok_pair ran
    exact ⟨[],[],progress.protocol,rfl,fun _ => rfl,by simp⟩
  | cons data datas ih =>
    rw [feed_until_cons,bind_ok] at ran
    obtain ⟨⟨protocol,r⟩,_,ran⟩ := ran
    simp only at ran
    split at ran
    · obtain ⟨rfl,rfl⟩ := ok_pair ran
      exact ⟨[data],datas,protocol,rfl,by simp,rfl⟩
    · obtain ⟨taken,rest,protocol',split,all,same⟩ := ih ran
      exact ⟨data :: taken,rest,protocol',by rw [split]; rfl,all,by simp [same,Progress.hear]⟩

/-- Before block `n` nothing of it was handed over. -/
structure Before (arrivals : List Item) (n : Nat) (progress : Progress σ) : Prop where
  state : progress.state = .Init n
  each : ∀ channel k, payloads channel k progress.ingested <+: payloads channel k arrivals
  none : ∀ channel k, n ≤ k → payloads channel k progress.ingested = []

/-- First parts of the messages of block `n` were handed over since. -/
theorem Before.fed {arrivals : List Item} {n : Nat} {start : Progress σ} (before : Before arrivals n start)
    {announcements packets : List Bytes} (announced : announcements <+: payloads .Announce n arrivals)
    (sent : packets <+: payloads .Data n arrivals) (progress : Progress σ)
    (ingested : progress.ingested = start.ingested ++ announcements.map (fun data => (.Announce,n,data)) ++
      packets.map (fun data => (.Data,n,data))) :
    (∀ channel k, payloads channel k progress.ingested <+: payloads channel k arrivals) ∧
    payloads .Announce n progress.ingested = announcements ∧ payloads .Data n progress.ingested = packets ∧
    ∀ channel k, n < k → payloads channel k progress.ingested = [] := by
  have others : ∀ channel k, k ≠ n → payloads channel k progress.ingested = payloads channel k start.ingested := by
    intro channel k other
    rw [ingested,payloads_append,payloads_append,payloads_of_other (.inl other.symm),payloads_of_other (.inl other.symm),
      List.append_nil,List.append_nil]
  have here : payloads .Announce n progress.ingested = announcements := by
    rw [ingested,payloads_append,payloads_append,before.none .Announce n le_rfl,payloads_of_channel,
      payloads_of_other (.inr (by decide)),List.nil_append,List.append_nil]
  have here' : payloads .Data n progress.ingested = packets := by
    rw [ingested,payloads_append,payloads_append,before.none .Data n le_rfl,payloads_of_channel,
      payloads_of_other (.inr (by decide)),List.nil_append,List.nil_append]
  refine ⟨fun channel k => ?_,here,here',fun channel k later => ?_⟩
  · by_cases same : k = n
    · subst same
      cases channel with
      | Announce => rwa [here]
      | Data => rwa [here']
    · rw [others channel k same]
      exact before.each channel k
  · rw [others channel k (by omega)]
    exact before.none channel k (by omega)

theorem handle_accounted {arrivals : List Item} {fuel n : Nat} {start final : Progress σ} (before : Before arrivals n start)
    (enough : from_block n arrivals < fuel) (ran : handle P arrivals fuel n start = .ok final) : Accounted arrivals final := by
  induction fuel generalizing n start with
  | zero => omega
  | succ fuel ih =>
    simp only [handle,handle_block,bind_ok] at ran
    obtain ⟨⟨found,heard⟩,fed,ran⟩ := ran
    obtain ⟨announcements,rest,protocol,split,all,rfl⟩ := feed_until_ok fed
    have announced : announcements <+: payloads .Announce n arrivals := ⟨rest,split.symm⟩
    simp only at ran
    cases found with
    | false =>
      obtain rfl := Except.ok.inj ran
      obtain rfl := all rfl
      rw [List.append_nil] at split
      obtain ⟨each,here,here',later⟩ := before.fed announced List.nil_prefix
        { start with protocol, ingested := start.ingested ++ announcements.map (fun data => (.Announce,n,data)) }
        (by rw [List.map_nil,List.append_nil])
      have state := before.state
      refine ⟨each,?_,?_,?_⟩
      · intro k waits
        obtain rfl : n = k := ActorState.Init.inj (state.symm.trans waits)
        exact ⟨here.trans split.symm,here'⟩
      · exact fun k works => absurd (state.symm.trans works) (by simp)
      · simp only [state]
        exact later
    | true =>
      simp only [if_true,decode_block,bind_ok] at ran
      obtain ⟨⟨found,taken⟩,fed',ran⟩ := ran
      obtain ⟨packets,rest',protocol',split',all',rfl⟩ := feed_until_ok fed'
      obtain ⟨each,here,here',later⟩ := before.fed announced ⟨rest',split'.symm⟩
        ⟨.Decoding n,protocol',start.decoded_count,start.blocks,start.ingested ++
          announcements.map (fun data => (.Announce,n,data)) ++ packets.map (fun data => (.Data,n,data))⟩ rfl
      simp only at ran
      cases found with
      | false =>
        obtain rfl := Except.ok.inj ran
        obtain rfl := all' rfl
        rw [List.append_nil] at split'
        refine ⟨each,?_,?_,?_⟩
        · rintro k ⟨⟩
        · rintro k ⟨⟩
          exact here'.trans split'.symm
        · exact later
      | true =>
        simp only [if_true,bind_ok] at ran
        obtain ⟨next,advanced,ran⟩ := ran
        obtain ⟨state,ingested⟩ := advance_ok_keeps advanced
        have some_announcement : payloads .Announce n arrivals ≠ [] := by
          intro empty
          rw [empty] at fed
          cases fed
        have less := from_block_next some_announcement
        refine ih ⟨state,?_,?_⟩ (by omega) ran
        · rw [ingested]
          exact each
        · rw [ingested]
          exact fun channel k from_next => later channel k from_next

theorem in_order_accounted {arrivals : List Item} {start final : Progress σ} (before : Before arrivals 0 start)
    (ran : in_order P arrivals 0 start = .ok final) : Accounted arrivals final := by
  have bounded : from_block 0 arrivals ≤ arrivals.length := List.countP_le_length
  exact handle_accounted before (by omega) ran

end

end Rlnc.InOrder
