import AerOS.Spec.Tls
import Mathlib.Data.UInt

namespace AerOS.Proof.Tls
open Lib AerOS.Tls List

variable {a b keys : Keys} {limit : Nat}
variable {peer : Peer} {act : Sealing} {entry : Keys × Sealing}

theorem zipWith_xor_inj {xs ys zs : List UInt8} (hy : ys.length = xs.length) (hz : zs.length = xs.length)
    (h : zipWith (fun a b => a ^^^ b) xs ys = zipWith (fun a b => a ^^^ b) xs zs) : ys = zs := by
  induction xs generalizing ys zs with
  | nil => simp_all
  | cons x xs ih =>
    cases ys with
    | nil => simp at hy
    | cons y ys =>
      cases zs with
      | nil => simp at hz
      | cons z zs =>
        simp only [zipWith_cons_cons, cons.injEq] at h
        have tail := ih (by simpa using hy) (by simpa using hz) h.2
        have head : y = z := by simpa using h.1
        rw [head, tail]

theorem nonce_inj (iv : a.iv = b.iv) (length : a.iv.length = 12) (ha : a.sequence < 2 ^ 64)
    (hb : b.sequence < 2 ^ 64) (h : a.nonce = b.nonce) : a.sequence = b.sequence := by
  unfold Keys.nonce at h
  rw [← iv] at h
  have mixed := append_cancel_left h
  have bytes := zipWith_xor_inj (by simp [beBytes, length]) (by simp [beBytes, length]) mixed
  have low : leBytes 8 a.sequence = leBytes 8 b.sequence := reverse_injective bytes
  have values := congrArg ofLe low
  rwa [ofLe_leBytes, ofLe_leBytes, Nat.mod_eq_of_lt (by omega), Nat.mod_eq_of_lt (by omega)] at values

variable {crypto : Crypto} {suite : Suite} {secret : List UInt8}

@[simp] theorem chain_generation (g : Nat) : (chain crypto suite secret g).generation = g := by
  induction g with
  | zero => rfl
  | succ g ih => simp [chain, nextKeys, Keys.fromSecret, ih]

def OnChain (crypto : Crypto) (suite : Suite) (secret : List UInt8) (keys : Keys) : Prop :=
  keys = { chain crypto suite secret keys.generation with sequence := keys.sequence }

section
variable (h : OnChain crypto suite secret keys)
include h

theorem OnChain.fields : keys.secret = (chain crypto suite secret keys.generation).secret ∧
      keys.key = (chain crypto suite secret keys.generation).key ∧
      keys.iv = (chain crypto suite secret keys.generation).iv := by
  have secretEq := congrArg Keys.secret h
  have keyEq := congrArg Keys.key h
  have ivEq := congrArg Keys.iv h
  exact ⟨secretEq, keyEq, ivEq⟩

theorem OnChain.bumped : OnChain crypto suite secret keys.bumped := by
  unfold OnChain Keys.bumped at *
  rw [h]
  simp

theorem OnChain.next : OnChain crypto suite secret (nextKeys crypto suite keys) := by
  unfold OnChain
  simp [nextKeys, Keys.fromSecret, chain, h.fields.1]

theorem OnChain.active : keys.active = true := by
  rw [h]
  cases keys.generation <;> rfl

end

def stamp (keys : Keys) : Nat := keys.generation * 2 ^ 64 + keys.sequence

theorem stamp_bumped (keys : Keys) : stamp keys.bumped = stamp keys + 1 := by
  simp [stamp, Keys.bumped, Nat.add_assoc]

theorem stamp_lt_next {keys : Keys} (h : keys.sequence < 2 ^ 64) :
    stamp keys < stamp (nextKeys crypto suite keys) := by
  simp only [stamp, nextKeys, Keys.fromSecret]
  omega

abbrev KeysDiffer (crypto : Crypto) (suite : Suite) (secret : List UInt8) (last : Nat) : Prop :=
  ∀ i ≤ last, ∀ j ≤ last, (chain crypto suite secret i).key = (chain crypto suite secret j).key → i = j

theorem stamp_inj (inj : KeysDiffer crypto suite secret limit)
    (ha : OnChain crypto suite secret a) (hb : OnChain crypto suite secret b)
    (ga : a.generation ≤ limit) (gb : b.generation ≤ limit) (sa : a.sequence < 2 ^ 64)
    (sb : b.sequence < 2 ^ 64) (key : a.key = b.key) (nonce : a.nonce = b.nonce) : stamp a = stamp b := by
  have keyA := ha.fields.2.1
  have keyB := hb.fields.2.1
  have generation : a.generation = b.generation := inj _ ga _ gb (by rw [← keyA, ← keyB, key])
  have ivA := ha.fields.2.2
  have ivB := hb.fields.2.2
  have iv : a.iv = b.iv := by rw [ivA, ivB, generation]
  have length : a.iv.length = 12 := by
    rw [ivA]
    cases a.generation <;> simp [chain, nextKeys, Keys.fromSecret, crypto.expandLabel_length]
  have sequence := nonce_inj iv length sa sb nonce
  simp [stamp, generation, sequence]

structure Fresh (crypto : Crypto) (suite : Suite) (secret : List UInt8) (keys : Keys) : Prop where
  onChain : OnChain crypto suite secret keys
  sequence_lt : keys.sequence < 2 ^ 64

theorem fresh_start : Fresh crypto suite secret (Keys.fromSecret crypto suite secret 0) :=
  ⟨rfl, by simp [Keys.fromSecret]⟩

theorem Fresh.next (h : Fresh crypto suite secret keys) :
    Fresh crypto suite secret (nextKeys crypto suite keys) :=
  ⟨h.onChain.next, by simp [nextKeys, Keys.fromSecret]⟩

theorem Fresh.generation_le (ha : Fresh crypto suite secret a) (hb : Fresh crypto suite secret b)
    (h : stamp a ≤ stamp b) : a.generation ≤ b.generation := by
  have := ha.sequence_lt
  have := hb.sequence_lt
  simp only [stamp] at h
  omega

theorem settle_fresh {rounds : Nat} {keys' : Keys} {stream rest : List UInt8}
    (h : settle crypto suite rounds keys stream = some (keys', rest)) (fresh : Fresh crypto suite secret keys) :
    Fresh crypto suite secret keys' ∧ stamp keys ≤ stamp keys' := by
  induction rounds generalizing keys stream with
  | zero =>
    simp only [settle, Option.some.injEq, Prod.mk.injEq] at h
    rw [← h.1]
    exact ⟨fresh, le_rfl⟩
  | succ rounds ih =>
    simp only [settle] at h
    split at h
    · simp only [Option.some.injEq, Prod.mk.injEq] at h
      rw [← h.1]
      exact ⟨fresh, le_rfl⟩
    split at h
    · exact ih h fresh
    split at h
    · have later := ih h fresh.next
      have before := @stamp_lt_next crypto suite keys fresh.sequence_lt
      exact ⟨later.1, by omega⟩
    · simp at h

section
variable (honest : Honest crypto suite peer act) (fresh : Fresh crypto suite secret peer.keys)
include honest fresh

theorem settled_fresh :
    ∃ keys rest, peer.settled crypto suite act = some (keys, rest) ∧ Fresh crypto suite secret keys ∧
      stamp peer.keys < stamp keys := by
  have bumped : Fresh crypto suite secret peer.keys.bumped := ⟨fresh.onChain.bumped, honest.sequence_lt⟩
  have more := stamp_bumped peer.keys
  cases result : peer.settled crypto suite act with
  | none => exact absurd honest.settles (by simp [result])
  | some pair =>
    obtain ⟨keys, rest⟩ := pair
    refine ⟨keys, rest, rfl, ?_⟩
    unfold Peer.settled at result
    split at result
    · have later := settle_fresh result bumped
      exact ⟨later.1, by omega⟩
    simp only [Option.some.injEq, Prod.mk.injEq] at result
    rw [← result.1]
    exact ⟨bumped, by omega⟩

theorem send_fresh : Fresh crypto suite secret (peer.send crypto suite act).keys ∧
      stamp peer.keys < stamp (peer.send crypto suite act).keys := by
  obtain ⟨keys, _, result, later⟩ := settled_fresh honest fresh
  simpa [Peer.send, result] using later

end

abbrev peerAfter (crypto : Crypto) (suite : Suite) (start : Peer) (acts : List Sealing) : Peer :=
  Run.final (Peer.send crypto suite) start acts

abbrev AllHonest (crypto : Crypto) (suite : Suite) (start : Peer) (acts : List Sealing) : Prop :=
  Run.Along (Peer.send crypto suite) (Honest crypto suite) start acts

variable {start : Peer} {acts : List Sealing}

theorem peerAfter_fresh (honest : AllHonest crypto suite start acts)
    (fresh : Fresh crypto suite secret start.keys) :
    Fresh crypto suite secret (peerAfter crypto suite start acts).keys ∧
      stamp start.keys + acts.length ≤ stamp (peerAfter crypto suite start acts).keys := by
  induction acts generalizing start with
  | nil => exact ⟨fresh, by simp [peerAfter, Run.final]⟩
  | cons _ acts ih =>
    have first := send_fresh honest.1 fresh
    have rest := ih honest.2 first.1
    refine ⟨rest.1, ?_⟩
    have bound := rest.2
    simp only [peerAfter, Run.final, foldl_cons, length_cons] at bound ⊢
    omega

theorem peerAfter_log (acts : List Sealing) (h : entry ∈ (peerAfter crypto suite start acts).log) :
    entry ∈ start.log ∨ ∃ pre post, acts = pre ++ entry.2 :: post ∧
      entry.1 = (peerAfter crypto suite start pre).keys := by
  induction acts generalizing start with
  | nil => exact .inl h
  | cons act acts ih =>
    rcases @ih (start.send crypto suite act) h with old | ⟨pre, post, split, keys⟩
    · have : entry ∈ start.log ∨ entry = (start.keys, act) := by simpa [Peer.send] using old
      rcases this with old | new
      · exact .inl old
      · exact .inr ⟨[], acts, by simp [new], by simp [new, peerAfter, Run.final]⟩
    · exact .inr ⟨act :: pre, post, by simp [split], keys⟩

theorem entry_at {consumed rest : List Sealing} (inj : KeysDiffer crypto suite secret limit)
    (honest : AllHonest crypto suite start (consumed ++ rest)) (fresh : Fresh crypto suite secret start.keys)
    (bound : (peerAfter crypto suite start (consumed ++ rest)).keys.generation ≤ limit)
    (empty : start.log = []) (member : entry ∈ (peerAfter crypto suite start (consumed ++ rest)).log)
    (key : entry.1.key = (peerAfter crypto suite start consumed).keys.key)
    (nonce : entry.1.nonce = (peerAfter crypto suite start consumed).keys.nonce) :
    ∃ post, rest = entry.2 :: post := by
  rcases peerAfter_log _ member with old | ⟨pre, post, split, keys⟩
  · simp [empty] at old
  have freshAt : ∀ xs ys, consumed ++ rest = xs ++ ys →
      Fresh crypto suite secret (peerAfter crypto suite start xs).keys ∧
        (peerAfter crypto suite start xs).keys.generation ≤ limit ∧
        stamp (peerAfter crypto suite start xs).keys + ys.length ≤
          stamp (peerAfter crypto suite start (consumed ++ rest)).keys := by
    intro xs ys h
    have parts := Run.along_append.mp (h ▸ honest)
    have front := (peerAfter_fresh parts.1 fresh).1
    have back : Fresh crypto suite secret (peerAfter crypto suite (peerAfter crypto suite start xs) ys).keys ∧
        stamp (peerAfter crypto suite start xs).keys + ys.length ≤
          stamp (peerAfter crypto suite (peerAfter crypto suite start xs) ys).keys :=
      peerAfter_fresh parts.2 front
    have whole := (peerAfter_fresh honest fresh).1
    have joined : peerAfter crypto suite start (consumed ++ rest) =
        peerAfter crypto suite (peerAfter crypto suite start xs) ys := by
      rw [h]
      exact Run.final_append _ start xs ys
    rw [joined] at whole bound ⊢
    have := front.generation_le whole ((Nat.le_add_right _ _).trans back.2)
    exact ⟨front, by omega, back.2⟩
  have here := freshAt consumed rest rfl
  have there := freshAt pre (entry.2 :: post) split
  have same := stamp_inj inj there.1.onChain here.1.onChain there.2.1 here.2.1 there.1.sequence_lt
    here.1.sequence_lt (by rw [← keys, key]) (by rw [← keys, nonce])
  have later : ∀ xs mid ys, consumed ++ rest = xs ++ (mid ++ ys) →
      stamp (peerAfter crypto suite start xs).keys + mid.length ≤
        stamp (peerAfter crypto suite start (xs ++ mid)).keys := by
    intro xs mid ys h
    have parts := Run.along_append.mp (h ▸ honest)
    have middle := Run.along_append.mp parts.2
    have grown := (peerAfter_fresh middle.1 (freshAt xs (mid ++ ys) h).1).2
    rwa [show peerAfter crypto suite start (xs ++ mid) = _ from Run.final_append _ start xs mid]
  rcases append_eq_append_iff.mp split with ⟨mid, longer, tail⟩ | ⟨mid, longer, tail⟩
  · cases mid with
    | nil => exact ⟨post, by simpa using tail⟩
    | cons x mid =>
      have := later consumed (x :: mid) (entry.2 :: post) (by rw [tail])
      rw [← longer] at this
      simp only [length_cons] at this
      omega
  cases mid with
  | nil => exact ⟨post, by simpa using tail.symm⟩
  | cons x mid =>
    have := later pre (x :: mid) rest (by rw [longer]; exact append_assoc _ _ _)
    rw [← longer] at this
    simp only [length_cons] at this
    omega

open Lib.Action
variable {T : Type} {net : Transport T} {client : List UInt8}
variable {α β : Type}
variable {pairs : List (List UInt8 × List UInt8)} {w : World T} {x : M T α} {f : α → M T β}

def Spent (crypto : Crypto) (suite : Suite) (secret : List UInt8) (limit : Nat)
    (pairs : List (List UInt8 × List UInt8)) : Prop :=
  ∃ used : List Keys, pairs = used.map (fun keys => (keys.key, keys.nonce)) ∧
    used.Pairwise (fun a b => stamp a < stamp b) ∧
    ∀ keys ∈ used, Fresh crypto suite secret keys ∧ stamp keys < limit

theorem spent_nil (limit : Nat) : Spent crypto suite client limit [] := ⟨[], rfl, List.Pairwise.nil, by simp⟩

theorem Spent.mono {limit limit' : Nat}
    (h : Spent crypto suite client limit pairs) (le : limit ≤ limit') : Spent crypto suite client limit' pairs := by
  obtain ⟨used, eq, sorted, bound⟩ := h
  exact ⟨used, eq, sorted, fun keys member => ⟨(bound keys member).1, lt_of_lt_of_le (bound keys member).2 le⟩⟩

theorem Spent.concat {keys : Keys}
    (h : Spent crypto suite client (stamp keys) pairs) (fresh : Fresh crypto suite client keys) :
    Spent crypto suite client (stamp keys + 1) (pairs ++ [(keys.key, keys.nonce)]) := by
  obtain ⟨used, eq, sorted, bound⟩ := h
  refine ⟨used ++ [keys], by simp [eq], ?_, ?_⟩
  · rw [pairwise_append]
    refine ⟨sorted, pairwise_singleton _ _, ?_⟩
    intro a ha b hb
    rw [mem_singleton.mp hb]
    exact (bound a ha).2
  intro k member
  rcases mem_append.mp member with old | new
  · exact ⟨(bound k old).1, Nat.lt_succ_of_lt (bound k old).2⟩
  rw [mem_singleton.mp new]
  exact ⟨fresh, Nat.lt_succ_self _⟩

theorem Spent.nodup {last : Keys}
    (h : Spent crypto suite client (stamp last + 1) pairs) (fresh : Fresh crypto suite client last)
    (inj : KeysDiffer crypto suite client last.generation) :
    pairs.Nodup ∧ ∀ pair ∈ pairs, ∃ i ≤ last.generation, pair.1 = (chain crypto suite client i).key := by
  obtain ⟨used, rfl, sorted, bound⟩ := h
  have generation : ∀ keys ∈ used, keys.generation ≤ last.generation := by
    intro keys member
    exact (bound keys member).1.generation_le fresh (Nat.lt_succ_iff.mp (bound keys member).2)
  constructor
  · rw [List.Nodup, pairwise_map]
    refine sorted.imp_of_mem ?_
    intro a b ha hb _ same
    have key : a.key = b.key := congrArg Prod.fst same
    have nonce : a.nonce = b.nonce := congrArg Prod.snd same
    have := stamp_inj inj (bound a ha).1.onChain (bound b hb).1.onChain (generation a ha) (generation b hb)
      (bound a ha).1.sequence_lt (bound b hb).1.sequence_lt key nonce
    omega
  · intro pair member
    obtain ⟨keys, used, rfl⟩ := mem_map.mp member
    exact ⟨keys.generation, generation keys used, (bound keys used).1.onChain.fields.2.1⟩

structure Writing (crypto : Crypto) (suite : Suite) (client : List UInt8) (slack : Nat) (w : World T) : Prop where
  suite_eq : w.session.suite = suite
  fresh : Fresh crypto suite client w.session.write
  spent : Spent crypto suite client (stamp w.session.write + slack) w.sealed

theorem Writing.relax (h : Writing crypto suite client 0 w) : Writing crypto suite client 1 w :=
  ⟨h.suite_eq, h.fresh, h.spent.mono (Nat.le_succ _)⟩

theorem Writing.congr {slack : Nat} {w' : World T} (h : Writing crypto suite client slack w)
    (hsuite : w'.session.suite = w.session.suite) (hwrite : w'.session.write = w.session.write)
    (hsealed : w'.sealed = w.sealed) : Writing crypto suite client slack w' :=
  ⟨hsuite ▸ h.suite_eq, hwrite ▸ h.fresh, by rw [hsealed, hwrite]; exact h.spent⟩

def stopped (crypto : Crypto) (suite : Suite) (client : List UInt8) : Stop → World T → Prop
  | .panic, w => Writing crypto suite client 1 w
  | _, w => Writing crypto suite client 0 w

def Seals (crypto : Crypto) (suite : Suite) (client : List UInt8) (x : M T α) : Prop :=
  ∀ w, Writing crypto suite client 0 w →
    wp x (fun _ w' => Writing crypto suite client 0 w') (stopped crypto suite client) w

theorem stopped_of_writing (stop : Stop) (w : World T) (h : Writing crypto suite client 0 w) :
    stopped crypto suite client stop w := by
  cases stop with
  | error e => exact h
  | panic => exact h.relax
  | hang => exact h

def Keeps (P : World T → Prop) (E : Stop → World T → Prop) (x : M T α) : Prop :=
  ∀ w, P w → wp x (fun _ => P) E w

section
variable {P : World T → Prop} {E : Stop → World T → Prop}

theorem keeps_pure (a : α) : Keeps P E (pure a : M T α) := fun _ h => h

theorem keeps_bind (hx : Keeps P E x) (hf : ∀ a, Keeps P E (f a)) : Keeps P E (x >>= f) := by
  intro w h
  rw [wp_bind]
  exact wp_mono (hx w h) (fun a w' h' => hf a w' h') (fun _ _ h' => h')

theorem keeps_get_bind {f : World T → M T β} (hf : ∀ w, Keeps P E (f w)) : Keeps P E (get >>= f) :=
  fun w h => hf w w h

theorem keeps_ite {p : Prop} [Decidable p] {y : M T α} (hx : Keeps P E x) (hy : Keeps P E y) :
    Keeps P E (if p then x else y) := by
  split
  · exact hx
  · exact hy

theorem keeps_writeFrom (record : ∀ kind data, Keeps P E (writeRecord net crypto kind data)) (rounds : Nat)
    (data : List UInt8) : Keeps P E (writeFrom net crypto rounds data) := by
  induction rounds generalizing data with
  | zero => cases data <;> exact keeps_pure ()
  | succ rounds ih =>
    cases data with
    | nil => exact keeps_pure ()
    | cons _ data => exact keeps_bind (record _ _) fun _ => ih _

variable (fails : ∀ stop w, P w → E stop w)
include fails

theorem keeps_throw (stop : Stop) : Keeps P E (throw stop : M T α) := fails stop

theorem keeps_write (record : ∀ kind data, Keeps P E (writeRecord net crypto kind data)) (data : List UInt8) :
    Keeps P E (Tls.write net crypto data) :=
  keeps_get_bind fun _ => keeps_ite (keeps_throw fails _) (keeps_writeFrom record _ _)

theorem keeps_keyUpdate (renews : ∀ w, P w →
      P { w with session := { w.session with read := nextKeys crypto w.session.suite w.session.read } })
    (answers : Keeps P E (answerKeyUpdate net crypto)) (total : Nat) : Keeps P E (keyUpdate net crypto total) := by
  apply keeps_get_bind
  intro w
  apply keeps_ite (keeps_throw fails _)
  exact keeps_bind renews fun _ => keeps_ite answers (keeps_pure _)

theorem keeps_postHandshake (consume : ∀ total, Keeps P E (consumeHandshake total))
    (renew : ∀ total, Keeps P E (keyUpdate net crypto total)) (rounds : Nat) :
    Keeps P E (postHandshake net crypto rounds) := by
  induction rounds with
  | zero => exact keeps_pure ()
  | succ rounds ih =>
    apply keeps_get_bind
    intro w
    apply keeps_ite (keeps_pure _)
    apply keeps_ite (keeps_throw fails _)
    apply keeps_ite (keeps_pure _)
    apply keeps_ite (keeps_bind (consume _) fun _ => ih)
    apply keeps_ite _ (keeps_throw fails _)
    exact keeps_bind (renew _) fun _ => keeps_bind (consume _) fun _ => ih

section
variable (moves : ∀ w t, P w → P { w with transport := t })
include moves

theorem keeps_receive (n : Nat) : Keeps P E (receive net n) := by
  intro w h
  unfold wp receive
  cases net.receive n w.transport with
  | mk result t =>
    cases result with
    | error e => exact fails _ _ (moves w t h)
    | ok _ => exact moves w t h

theorem keeps_send (data : List UInt8) : Keeps P E (send net data) := by
  intro w h
  unfold wp send
  cases net.send data w.transport with
  | mk result t =>
    cases result with
    | error e => exact fails _ _ (moves w t h)
    | ok _ => exact moves w t h

end

theorem keeps_readExactFrom (receives : ∀ n, Keeps P E (receive net n))
    (stores : ∀ w record, P w → P { w with session := { w.session with record := record } })
    (rounds offset remaining : Nat) : Keeps P E (readExactFrom net rounds offset remaining) := by
  induction rounds generalizing offset remaining with
  | zero => cases remaining <;> exact keeps_pure ()
  | succ rounds ih =>
    cases remaining with
    | zero => exact keeps_pure ()
    | succ remaining =>
      apply keeps_bind (receives _)
      intro _
      apply keeps_ite (keeps_throw fails _)
      exact keeps_bind (fun w => stores w _) fun _ => ih _ _

end

theorem seals_throw (stop : Stop) : Seals crypto suite client (throw stop : M T α) := stopped_of_writing stop

theorem seals_attempt {g : Stop → M T β} (hx : Seals crypto suite client x)
    (hf : ∀ a, Seals crypto suite client (f a)) (hg : ∀ stop ≠ .panic, Seals crypto suite client (g stop))
    (hpanic : ∀ w, g .panic w = (.error .panic, w)) : Seals crypto suite client (attempt x f g) := by
  intro w h
  rw [wp_attempt]
  apply wp_mono (hx w h) (fun a w' h' => hf a w' h')
  intro stop w' h'
  cases stop with
  | error e => exact hg (.error e) (by simp) w' h'
  | panic =>
    unfold wp
    rw [hpanic]
    exact h'
  | hang => exact hg .hang (by simp) w' h'

theorem seals_update {f : Session → Session} (same : ∀ s, (f s).suite = s.suite ∧ (f s).write = s.write) :
    Seals crypto suite client (update f : M T Unit) :=
  fun w h => h.congr (same w.session).1 (same w.session).2 rfl

theorem seals_send (data : List UInt8) : Seals crypto suite client (send net data) :=
  keeps_send (P := Writing crypto suite client 0) stopped_of_writing (fun _ _ h => h.congr rfl rfl rfl) data

theorem seals_readExactFrom (rounds offset remaining : Nat) :
    Seals crypto suite client (readExactFrom net rounds offset remaining) :=
  keeps_readExactFrom (P := Writing crypto suite client 0) stopped_of_writing
    (keeps_receive stopped_of_writing fun _ _ h => h.congr rfl rfl rfl) (fun _ _ h => h.congr rfl rfl rfl) _ _ _

theorem seals_openRecord (opens : Opener) (stop : Nat) :
    Seals crypto suite client (openRecord opens stop : M T _) := by
  apply keeps_get_bind
  intro w
  dsimp only
  split
  · exact seals_throw _
  apply keeps_bind (seals_update (by simp))
  intro _
  apply keeps_bind
  · exact keeps_get_bind fun w => keeps_ite (seals_throw _) (seals_update (by simp))
  · exact fun _ => keeps_get_bind fun w => keeps_ite (seals_throw _) (keeps_pure _)

theorem seals_acceptRecord (opens : Opener) (outer : UInt8) (length : Nat) :
    Seals crypto suite client (acceptRecord opens outer length : M T _) := by
  apply keeps_get_bind
  intro w
  apply keeps_ite (keeps_ite (seals_throw _) (keeps_pure _))
  apply keeps_ite (keeps_ite (seals_throw _) (keeps_pure _))
  exact keeps_ite (seals_throw _) (keeps_bind (seals_openRecord _ _) fun _ => keeps_pure _)

theorem seals_readRecord (opens : Opener) (fuel : Nat) :
    Seals crypto suite client (readRecord net opens fuel) := by
  induction fuel with
  | zero => exact seals_throw _
  | succ fuel ih =>
    apply keeps_bind (seals_readExactFrom _ _ _)
    intro _
    apply keeps_get_bind
    intro w
    apply keeps_ite (seals_throw _)
    apply keeps_bind (seals_readExactFrom _ _ _)
    intro _
    apply keeps_bind (seals_acceptRecord _ _ _)
    intro accepted
    cases accepted with
    | none => exact ih
    | some _ => exact keeps_pure _

theorem seals_writeRecord (contentType : UInt8) (data : List UInt8) :
    Seals crypto suite client (writeRecord net crypto contentType data) := by
  apply keeps_ite (seals_throw _)
  intro w h
  rw [wp_bind, wp_get]
  dsimp only
  split
  · have before : Spent crypto suite client (stamp w.session.write) w.sealed := by simpa using h.spent
    have spent := before.concat h.fresh
    simp only [wp_bind, wp_modify, bumpWrite, wp_get]
    split
    · exact ⟨h.suite_eq, h.fresh, spent⟩
    have below := h.fresh.sequence_lt
    apply seals_send
    refine ⟨h.suite_eq, ⟨h.fresh.onChain.bumped, ?_⟩, ?_⟩
    · change w.session.write.sequence + 1 < 2 ^ 64
      omega
    change Spent crypto suite client (stamp w.session.write.bumped + 0) _
    rw [Nat.add_zero, stamp_bumped]
    exact spent
  · exact seals_send _ w h

theorem seals_answerKeyUpdate : Seals crypto suite client (answerKeyUpdate net crypto) := by
  apply keeps_bind (seals_writeRecord _ _)
  intro _ w h
  have later := @stamp_lt_next crypto suite _ h.fresh.sequence_lt
  change Writing crypto suite client 0 { w with session := { w.session with
    write := nextKeys crypto w.session.suite w.session.write } }
  rw [h.suite_eq]
  refine ⟨h.suite_eq, h.fresh.next, h.spent.mono ?_⟩
  rw [Nat.add_zero, Nat.add_zero]
  exact later.le

theorem seals_keyUpdate (total : Nat) : Seals crypto suite client (keyUpdate net crypto total) :=
  keeps_keyUpdate (P := Writing crypto suite client 0) stopped_of_writing (fun _ h => h.congr rfl rfl rfl)
    seals_answerKeyUpdate total

theorem seals_postHandshake (rounds : Nat) : Seals crypto suite client (postHandshake net crypto rounds) :=
  keeps_postHandshake stopped_of_writing
    (fun _ => seals_update (by simp)) seals_keyUpdate rounds

theorem seals_handleRecord (kind : UInt8) (start stop : Nat) :
    Seals crypto suite client (handleRecord net crypto kind start stop) := by
  apply keeps_ite (keeps_bind (seals_update (by simp)) fun _ => keeps_pure _)
  apply keeps_ite
  · apply keeps_get_bind
    intro w
    apply keeps_ite (keeps_bind (seals_update (by simp)) fun _ => keeps_pure _)
    exact keeps_get_bind fun w => keeps_ite (seals_throw _) (seals_throw _)
  apply keeps_ite _ (seals_throw _)
  apply keeps_bind _ fun _ => keeps_pure _
  apply keeps_get_bind
  intro w
  apply keeps_ite (seals_throw _)
  exact keeps_bind (seals_update (by simp)) fun _ => seals_postHandshake _

theorem seals_read (opens : Opener) (size fuel : Nat) :
    Seals crypto suite client (Tls.read net crypto opens size fuel) := by
  induction fuel with
  | zero => exact seals_throw _
  | succ fuel ih =>
    apply keeps_get_bind
    intro w
    apply keeps_ite (keeps_bind (seals_update (by simp)) fun _ => keeps_pure _)
    apply keeps_ite (keeps_pure _)
    apply keeps_bind
    · apply seals_attempt (seals_readRecord _ _) (fun _ => keeps_pure _)
      · intro _ _
        unfold closeOnTransport
        split
        · exact keeps_bind (seals_update (by simp)) fun _ => seals_throw _
        · exact seals_throw _
      · exact fun _ => rfl
    · intro _
      apply keeps_bind (seals_handleRecord _ _ _)
      intro returned
      cases returned with
      | none => exact ih
      | some _ => exact keeps_pure _

theorem seals_write (data : List UInt8) : Seals crypto suite client (Tls.write net crypto data) :=
  keeps_write stopped_of_writing seals_writeRecord data

theorem seals_close : Seals crypto suite client (Tls.close net crypto) := by
  apply keeps_bind
  · apply keeps_get_bind
    intro w
    apply keeps_ite _ (keeps_pure _)
    apply seals_attempt (seals_writeRecord _ _) (fun _ => keeps_pure _)
    · intro stop notPanic
      cases stop with
      | error e => exact keeps_pure _
      | panic => exact absurd rfl notPanic
      | hang => exact seals_throw _
    · exact fun _ => rfl
  · exact fun _ => seals_update (by simp)

end AerOS.Proof.Tls
