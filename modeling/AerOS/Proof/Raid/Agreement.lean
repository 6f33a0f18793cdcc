import AerOS.Proof.Raid.Transfers

namespace AerOS.Proof.Raid
open AerOS.Raid Lib Lib.Action Function List Option
variable {D : Type} [DecidableEq D] {io : Answers D} {m m' : Machine D} {t t' : Tracks D}
  {ledger : Uuid → Option Ledger}
variable {members : List D} {available count index lba slot : Nat} {data : Run} {uuid : Uuid}
variable {k : Track D} {l : Ledger} {s : System D} {inUse : D → Bool}

def Agreed (k : Track D) (written : Nat → Option Sector) : Prop :=
  ∃ data : Nat → Sector,
    (∀ slot < k.count, k.failed k.events slot = false → ∀ lba < k.synced, k.image slot lba = data lba) ∧
    ∀ lba < k.synced, ∀ sector, written lba = some sector → data lba = sector

structure Recorded (t : Tracks D) (ledger : Uuid → Option Ledger) : Prop where
  none_iff : ∀ uuid, t uuid = none ↔ ledger uuid = none
  entry : ∀ uuid k l, t uuid = some k → ledger uuid = some l →
    k.synced = l.synced ∧ (k.level = .mirror → Agreed k l.written)

def Sound (m : Machine D) (ledger : Uuid → Option Ledger) : Prop := ∃ t, Inv m t ∧ Recorded t ledger

omit [DecidableEq D] in
theorem Recorded.some_of (recorded : Recorded t ledger)
    (track : t uuid = some k) : ∃ l, ledger uuid = some l := by
  apply ne_none_iff_exists'.mp
  intro none
  rw [(recorded.none_iff uuid).mpr none] at track
  cases track

omit [DecidableEq D] in
theorem Recorded.track_of (recorded : Recorded t ledger)
    (noted : ledger uuid = some l) : ∃ k, t uuid = some k := by
  apply ne_none_iff_exists'.mp
  intro none
  rw [(recorded.none_iff uuid).mp none] at noted
  cases noted

omit [DecidableEq D] in
theorem mirrorsAgree_of_sound (sound : Sound s.machine s.ledger) : MirrorsAgree s := by
  obtain ⟨t, inv, recorded⟩ := sound
  have common : ∀ index volume, s.machine.volume index = some volume → volume.level = .mirror →
      ∃ (l : Ledger) (data : Nat → Sector), s.ledger volume.uuid = some l ∧
        (∀ slot member, volume.Serves slot member → ∀ lba < volume.sectors,
          (s.machine.disks member).data lba = data lba) ∧
        ∀ lba < volume.sectors, ∀ sector, l.written lba = some sector → data lba = sector := by
    intro index volume found mirror
    obtain ⟨k, track, follows⟩ := inv.follows index volume found
    obtain ⟨l, noted⟩ := recorded.some_of track
    have level : k.level = .mirror := follows.level ▸ mirror
    obtain ⟨data, same, latest⟩ := (recorded.entry volume.uuid k l track noted).2 level
    have small := follows.small mirror
    refine ⟨l, data, noted, fun slot member serves lba below => ?_, fun lba below =>
      latest lba (below.trans_le small)⟩
    obtain ⟨-, -, -, -, -, holds, -⟩ := inv.serving found track serves
    have bound : slot < k.count := follows.count ▸ serves.bound
    have working : k.failed k.events slot = false := by
      rw [← follows.failed slot bound, serves.working]
    rw [holds.image level lba (below.trans_le small)]
    exact same slot bound working lba (below.trans_le small)
  refine ⟨?_, ?_⟩
  · intro index volume found mirror slot member slot' member' serves serves' lba below
    obtain ⟨-, data, -, same, -⟩ := common index volume found mirror
    rw [same slot member serves lba below, same slot' member' serves' lba below]
  intro index volume found mirror l noted slot member serves lba below sector written
  obtain ⟨l', data, noted', same, latest⟩ := common index volume found mirror
  obtain rfl := mem_unique noted noted'
  rw [same slot member serves lba below]
  exact latest lba below sector written

omit [DecidableEq D] in
theorem Recorded.worn (recorded : Recorded t ledger) (worn : Worn t t') : Recorded t' ledger := by
  constructor
  · intro uuid
    rw [← recorded.none_iff uuid]
    refine ⟨fun none => ?_, (worn uuid).1⟩
    cases track : t uuid with
    | none => rfl
    | some k =>
      obtain ⟨k', track', -⟩ := (worn uuid).2 k track
      exact absurd (none.symm.trans track') nofun
  intro uuid k' l track' noted
  obtain ⟨k, track⟩ := recorded.track_of noted
  obtain ⟨k₁, track₁, level, count, synced, image, fewer⟩ := (worn uuid).2 k track
  obtain rfl := mem_unique track' track₁
  obtain ⟨same, agreed⟩ := recorded.entry uuid k l track noted
  refine ⟨synced.trans same, fun mirror => ?_⟩
  obtain ⟨data, equal, latest⟩ := agreed (level ▸ mirror)
  refine ⟨data, fun slot bound working => ?_, synced ▸ latest⟩
  rw [image, synced]
  exact equal slot (count ▸ bound) (fewer slot (count ▸ bound) working)

omit [DecidableEq D] in
theorem Recorded.change (recorded : Recorded t ledger)
    (others : ∀ other, other ≠ uuid → t' other = t other) (track : t' uuid = some k)
    (synced : k.synced = l.synced) (agreed : k.level = .mirror → Agreed k l.written) :
    Recorded t' (update ledger uuid (some l)) := by
  constructor
  · intro other
    by_cases same : other = uuid
    · subst same
      rw [track, update_self]
      exact ⟨nofun, nofun⟩
    · rw [others other same, update_of_ne same]
      exact recorded.none_iff other
  intro other k' l' track' noted
  by_cases same : other = uuid
  · subst same
    rw [update_self] at noted
    obtain rfl := mem_unique track track'
    obtain rfl := some.inj noted
    exact ⟨synced, agreed⟩
  · rw [others other same] at track'
    rw [update_of_ne same] at noted
    exact recorded.entry other k' l' track' noted

section
variable (inv : Inv m t)
include inv

section
variable (recorded : Recorded t ledger)
include recorded

theorem create_sound (lands : Lands io m) {level : Level} {chunk : Nat} (unknown : ledger uuid = none)
    (fresh : ∀ member header, m.header member = some header → header.uuid ≠ uuid)
    (equal : level = .mirror → ∀ member ∈ members, ∀ member' ∈ members, ∀ lba,
      (∀ other ∈ members, lba < m.usable other) → (m.disks member).data lba = (m.disks member').data lba) :
    wp (create io inUse uuid level chunk members) (fun _ m' => Sound m' (update ledger uuid
        (some ⟨fun _ => none, (members.map m.usable).foldl min (2 ^ 64 - 1)⟩)))
      (fun _ m' => Sound m' ledger) m := by
  apply create_wp
  · intro _
    exact ⟨t, inv, recorded⟩
  intro slot _ created
  have unknown' : t uuid = none := (recorded.none_iff uuid).mpr unknown
  have install := created_install inv created unknown' fresh
  have found := install.place slot
  rw [if_pos rfl] at found
  refine wp_of_ok (persist_wp found install.encodable (lands.of_sectors install.sectors)) ?_
  intro _ m' persisted
  have kept := Install.inv inv install persisted
  rw [created.uuid_eq] at kept
  refine ⟨_, kept, recorded.change (fun other ne => update_of_ne ne _ _) (update_self _ _ _) rfl ?_⟩
  intro mirror
  obtain ⟨first, rest, rfl⟩ := exists_cons_of_length_pos created.count_pos
  refine ⟨fun lba => (m.disks first).data lba, fun slot' bound _ lba below => ?_, nofun⟩
  change (((first :: rest)[slot']?).map fun member => (m.disks member).data lba).getD Buffer.zero = _
  have bound' : slot' < (first :: rest).length := bound
  rw [getElem?_eq_getElem bound']
  apply equal mirror _ (getElem_mem bound') first mem_cons_self
  intro other mem
  have smallest := foldl_min_le (2 ^ 64 - 1) (mem_map_of_mem (f := m.usable) mem)
  exact below.trans_le smallest

omit [DecidableEq D] in
theorem assembleFrom_sound (complete : ∀ first rest, m.readable io m.transfers members = first :: rest →
      Complete ⟨m, ledger⟩ first rest) :
    wp (assembleFrom io members) (fun _ m' => Sound m' ledger) (fun _ m' => Sound m' ledger) m := by
  apply assembleFrom_wp
  · intro _ m' volumes disks
    exact ⟨t, inv_congr volumes disks inv, recorded⟩
  intro first rest _ _ m' made volumes disks
  obtain ⟨current, l, noted, index, entry, bound, held, le⟩ := complete first rest made.readable
  obtain ⟨k, track⟩ := recorded.track_of noted
  have synced := (recorded.entry first.2.uuid k l track noted).1
  refine ⟨t, made.keeps_inv inv track current (fun _ => ?_) volumes disks, recorded⟩
  exact ⟨index, entry, bound, held, synced ▸ le⟩

theorem fail_sound (lands : Lands io m)
    (events : ∀ volume, m.volume index = some volume → volume.events + maxMembers < 2 ^ 64) :
    wp (fail io index slot) (fun _ m' => Sound m' ledger) (fun _ m' => Sound m' ledger) m := by
  have unchanged : Sound m ledger := ⟨t, inv, recorded⟩
  unfold fail
  rw [wp_bind, wp_get]
  cases found : m.volume index with
  | none => exact unchanged
  | some volume =>
    obtain ⟨k, track, -⟩ := inv.follows index volume found
    dsimp only
    split
    · exact unchanged
    split
    · exact unchanged
    next fit =>
      obtain ⟨_, many⟩ := not_or.mp fit
      obtain ⟨_, bound, ne, works⟩ := other_of_healthy (not_lt.mp many) slot
      have room := events volume found
      simp only [maxMembers] at room
      rw [wp_bind]
      refine wp_of_ok (bump_failing inv found track (by omega) lands bound ne works) ?_
      rintro _ m' ⟨inv', -⟩
      exact ⟨_, inv', recorded.worn (worn_fail inv found track slot)⟩

omit [DecidableEq D] in
theorem stop_sound (index : Nat) :
    wp (stop index) (fun _ m' => Sound m' ledger) (fun _ m' => Sound m' ledger) m := by
  have unchanged : Sound m ledger := ⟨t, inv, recorded⟩
  unfold stop
  rw [wp_bind, wp_get]
  cases found : m.volume index with
  | none => exact unchanged
  | some volume =>
    have fewer : ∀ {j other}, (m.put index none).volume j = some other → m.volume j = some other := by
      intro j other held
      rw [volume_put m (volume_bound found)] at held
      split at held
      · cases held
      · exact held
    have sectors : ∀ member, ((m.put index none).disks member).sectors =
        (m.disks member).sectors := fun _ => rfl
    refine ⟨t, ⟨fun j other held => ?_, fun i j v w hi hj => inv.apart i j v w (fewer hi) (fewer hj), ?_,
      fun j other slot member held => inv.carried j other slot member (fewer held),
      fun member header k read track => ?_, inv.superseded⟩, recorded⟩
    · obtain ⟨k, track, follows⟩ := inv.follows j other (fewer held)
      exact ⟨k, track, follows.congr sectors⟩
    · rintro member i slot j slot' ⟨v, hi, rest⟩ ⟨w, hj, rest'⟩
      exact inv.exclusive member i slot j slot' ⟨v, fewer hi, rest⟩ ⟨w, fewer hj, rest'⟩
    · exact (inv.fits member header k read track).congr (sectors member) fun _ _ => rfl

section
variable (lands : Lands io m)
  (events : ∀ volume, m.volume index = some volume → volume.events + maxMembers < 2 ^ 64)
include lands events

theorem replace_sound {member : D}
    (free : ∀ index' slot', m.Fills index' slot' member → index' = index ∧ slot' = slot)
    (spare : ∀ volume, m.volume index = some volume → (∀ header, m.header member = some header →
        header.uuid = volume.uuid ∧ header.events < volume.events) ∨ Perfect io) :
    wp (replace io inUse index slot member)
      (fun _ m' => Sound m' ((Call.replace inUse index slot member).record m ledger))
      (fun _ m' => Sound m' ledger) m := by
  apply replace_wp
  · intro _
    exact ⟨t, inv, recorded⟩
  intro volume candidate source found mirror bound large ne serves
  obtain ⟨k, track, follows⟩ := inv.follows index volume found
  have few := follows.few
  have apart : source ≠ member := by
    rintro rfl
    have small := serves.bound.trans_le few
    exact ne (free index candidate ⟨volume, found, small, serves.member⟩).2
  have fitsSource := follows.within mirror candidate source serves.member
  have room := events volume found
  refine wp_of_ok (copyOver_wp apart fitsSource large (by omega) (CopyFrame.refl m member) nofun) ?_
  rintro success m' ⟨frame, copied, imperfect⟩
  constructor
  · intro success
    have copy : Copied m m' volume source member :=
      ⟨frame.volumes, frame.header, frame.sectors, frame.other, copied success⟩
    have room' : (replaced volume slot member).events + 1 < 2 ^ 64 := by
      change volume.events + 1 < 2 ^ 64
      omega
    have install := replaced_install inv found track room' mirror bound large free ne serves copy
    refine wp_of_ok (bump_install inv room' lands install) ?_
    rintro _ m₂ ⟨inv₂, -⟩
    obtain ⟨l, noted⟩ := recorded.some_of track
    obtain ⟨same, agreed⟩ := recorded.entry volume.uuid k l track noted
    have small := follows.small mirror
    have level : k.level = .mirror := follows.level ▸ mirror
    simp only [Call.record, found, noted, map_some]
    refine ⟨_, inv₂, recorded.change (fun other ne => update_of_ne ne _ _) (update_self _ _ _) ?_ ?_⟩
    · change volume.sectors = min l.synced volume.sectors
      rw [← same, Nat.min_eq_right small]
    intro _
    obtain ⟨data, equal, latest⟩ := agreed level
    refine ⟨data, fun slot' bound' working lba below => ?_, fun lba below =>
      latest lba (below.trans_le small)⟩
    have inside := below.trans_le small
    by_cases here : slot' = slot
    · subst here
      have image : (k.replace volume slot' candidate member).image slot' = k.image candidate :=
        update_self _ _ _
      have bound : candidate < k.count := follows.count ▸ serves.bound
      rw [image]
      refine equal candidate bound ?_ lba inside
      rw [← follows.failed candidate bound, serves.working]
    have image : (k.replace volume slot candidate member).image slot' = k.image slot' :=
      update_of_ne here _ _
    have now : (k.replace volume slot candidate member).failed (k.events + 1) =
        update volume.failed slot false := update_self _ _ _
    change (k.replace volume slot candidate member).failed (k.events + 1) slot' = false at working
    rw [now, update_of_ne here, follows.failed slot' bound'] at working
    rw [image]
    exact equal slot' bound' working lba inside
  · intro failure
    rcases spare volume found with stale | perfect
    · refine ⟨t, inv.retouch frame.volumes frame.header frame.sectors (fun _ => rfl) ?_, recorded⟩
      intro other header k' read track' now
      by_cases same : other = member
      · subst same
        obtain ⟨uuid, less⟩ := stale header read
        rw [uuid, track] at track'
        obtain rfl := some.inj track'
        exact absurd (now.trans follows.events.symm) less.ne
      · have holds := (inv.fits other header k' read track').current now
        exact holds.congr (frame.sectors other) fun lba _ => by rw [frame.other other same]
    · exact absurd perfect (imperfect failure)

theorem read_sound : wp (Raid.read io index lba count available) (fun _ m' => Sound m' ledger)
      (fun _ m' => Sound m' ledger) m := by
  have unchanged : Sound m ledger := ⟨t, inv, recorded⟩
  unfold Raid.read transfer
  rw [wp_bind, wp_get]
  cases found : m.volume index with
  | none => exact unchanged
  | some volume =>
    obtain ⟨k, _, follows⟩ := inv.follows index volume found
    dsimp only
    split
    · exact unchanged
    next _ =>
      have fits : lba + count ≤ volume.sectors := by omega
      split
      · have room := events volume found
        have slots : volume.events + (range volume.count).length < 2 ^ 64 := by
          rw [length_range]
          exact (Nat.add_le_add_left follows.few _).trans_lt room
        refine wp_of_ok (mirrorRead_wp inv found slots lands) ?_
        rintro _ m' ⟨t', inv', worn⟩
        exact ⟨t', inv', recorded.worn worn⟩
      · next direction => exact absurd direction nofun
      · next other _ =>
        refine wp_mono (spread_wp inv found (fun mirror => other mirror rfl) fits) ?_ ?_
        · intro _ m' inv'
          exact ⟨t, inv', recorded⟩
        intro _ m' inv'
        exact ⟨t, inv', recorded⟩

end

end

end

omit [DecidableEq D] in
theorem Recorded.write_other (recorded : Recorded t ledger)
    (track : t uuid = some k) (level : k.level ≠ .mirror) (lba count : Nat) (data : Run) :
    Recorded t (update ledger uuid ((ledger uuid).map fun old => old.write lba count data)) := by
  obtain ⟨l, noted⟩ := recorded.some_of track
  rw [noted, map_some]
  exact recorded.change (fun _ _ => rfl) track (recorded.entry uuid k l track noted).1
    fun mirror => absurd mirror level

def written (old : Nat → Sector) (lba count : Nat) (data : Run) (sector : Nat) : Sector :=
  if lba ≤ sector ∧ sector < lba + count then data (sector - lba) else old sector

/-- Some member takes the run, or those that fail leave what they had. -/
abbrev Unharmed (io : Answers D) (m : Machine D) (volume : Volume D) (lba count : Nat) : Prop :=
  (∃ slot member, volume.Serves slot member ∧ ∀ turn, io.write turn member lba = .done) ∨
  ∀ slot member, volume.Serves slot member → ∀ turn left, io.write turn member lba = .failed left →
    ∀ sector < count, left sector = (m.disks member).data (lba + sector)

theorem mirrorWrite_sound (inv : Inv m t) (recorded : Recorded t ledger) (lands : Lands io m)
    {volume : Volume D} (found : m.volume index = some volume)
    (mirror : volume.level = .mirror) (events : volume.events + maxMembers < 2 ^ 64)
    (fits : lba + count ≤ volume.sectors) (answers : Unharmed io m volume lba count) :
    wp (mirrorWrite io index volume lba count data (range volume.count) false)
      (fun wrote m' => Sound m' (if wrote then
        update ledger volume.uuid ((ledger volume.uuid).map fun old => old.write lba count data)
        else ledger)) (fun _ _ => False) m := by
  obtain ⟨k, track, follows⟩ := inv.follows index volume found
  obtain ⟨l, noted⟩ := recorded.some_of track
  obtain ⟨synced, agreed⟩ := recorded.entry volume.uuid k l track noted
  have level : k.level = .mirror := follows.level ▸ mirror
  obtain ⟨old, equal, latest⟩ := agreed level
  have image : ∀ slot < volume.count, volume.failed slot = false → ∀ sector < k.synced,
      k.image slot sector = old sector := by
    intro slot bound working
    have bound' : slot < k.count := follows.count ▸ bound
    exact equal slot bound' (follows.failed slot bound' ▸ working)
  have keeps : Keeps io volume lba count old := by
    refine answers.imp_right fun all slot member serves turn left answer sector inside => ?_
    rw [all slot member serves turn left answer sector inside]
    obtain ⟨-, -, -, -, -, holds, -⟩ := inv.serving found track serves
    have below : lba + sector < k.synced := lt_of_lt_of_le (by omega) (fits.trans (follows.small mirror))
    rw [holds.image level _ below]
    exact image slot serves.bound serves.working _ below
  have start : Writing io index t volume k.synced lba old (written old lba count data) m t volume k
      (range volume.count) false :=
    { inv, lands, found, track, level := mirror
      others := fun _ _ => rfl
      uuid := rfl, members := rfl, count := rfl, sectors := rfl, synced := rfl
      events := by
        rw [length_range]
        exact (Nat.add_le_add_left follows.few _).trans_lt events
      fewer := fun _ working => working
      safe := fun _ _ serves _ => serves.working
      pending := fun slot _ bound working => image slot bound working
      past := fun slot bound notMem => absurd (mem_range.mpr bound) notMem
      some_wrote := nofun }
  refine wp_of_ok (mirrorWrite_wp start nodup_range (fun slot mem => mem_range.mp mem) fits
    keeps fun _ => rfl) ?_
  rintro wrote m' ⟨t', volume', k', w⟩
  have follows' := w.inv.follows_of w.found w.track
  have track' : t' volume.uuid = some k' := w.uuid ▸ w.track
  have working' : ∀ slot < k'.count, k'.failed k'.events slot = false →
      slot < volume'.count ∧ volume'.failed slot = false := by
    intro slot bound working
    exact ⟨follows'.count ▸ bound, (follows'.failed slot bound).trans working⟩
  refine ⟨t', w.inv, ?_⟩
  cases wrote with
  | true =>
    rw [if_pos rfl, noted, map_some]
    refine recorded.change w.others track' (w.synced.trans synced) fun _ => ?_
    refine ⟨written old lba count data, fun slot bound working => ?_, ?_⟩
    · obtain ⟨bound', working'⟩ := working' slot bound working
      have past := w.past slot bound' not_mem_nil working'
      exact w.synced.symm ▸ past
    intro sector below value noted'
    change (if _ then _ else _) = _ at noted'
    unfold written
    split at noted'
    · next inside =>
      rw [if_pos inside]
      exact some.inj noted'
    next outside =>
    rw [if_neg outside]
    exact latest sector (w.synced ▸ below) value noted'
  | false =>
    have same : update ledger volume.uuid (some l) = ledger := by
      rw [← noted, update_eq_self]
    rw [← same]
    refine recorded.change w.others track' (w.synced.trans synced) fun _ => ?_
    refine ⟨old, fun slot bound working => ?_, fun sector below =>
      latest sector (w.synced ▸ below)⟩
    obtain ⟨bound', working'⟩ := working' slot bound working
    have past := w.past slot bound' not_mem_nil working'
    exact w.synced.symm ▸ past.1

theorem write_sound (inv : Inv m t) (recorded : Recorded t ledger) (lands : Lands io m)
    (events : ∀ volume, m.volume index = some volume → volume.events + maxMembers < 2 ^ 64)
    (answers : ∀ volume, m.volume index = some volume → volume.level = .mirror → Unharmed io m volume lba count) :
    wp (write io index lba count available data) (fun success m' => Sound m' (if success then
        (Call.write index lba count available data).record m ledger else ledger))
      (fun _ m' => Sound m' ledger) m := by
  have unchanged : Sound m ledger := ⟨t, inv, recorded⟩
  unfold write transfer
  rw [wp_bind, wp_bind, wp_get]
  cases found : m.volume index with
  | none => exact unchanged
  | some volume =>
    obtain ⟨k, track, follows⟩ := inv.follows index volume found
    have recordIs : (Call.write index lba count available data).record m ledger = update ledger volume.uuid
          ((ledger volume.uuid).map fun old => old.write lba count data) := by
      simp only [Call.record, found]
    dsimp only
    split
    · exact unchanged
    next _ =>
      have fits : lba + count ≤ volume.sectors := by omega
      split
      · next direction => exact absurd direction nofun
      · next data' mirror same =>
        obtain rfl : data = data' := Direction.write.inj same
        rw [wp_bind]
        refine wp_of_ok (mirrorWrite_sound inv recorded lands found mirror (events volume found) fits
          (answers volume found mirror)) ?_
        intro wrote m' sound
        rw [recordIs]
        cases wrote with
        | true => exact sound
        | false => exact sound
      next _ notWrite =>
      have level : volume.level ≠ .mirror := fun mirror => notWrite data mirror rfl
      have level' : k.level ≠ .mirror := follows.level ▸ level
      refine wp_mono (spread_wp inv found level fits) ?_ ?_
      · intro result m' inv'
        rw [wp_pure, recordIs]
        refine ⟨t, inv', ?_⟩
        cases result with
        | none => exact recorded
        | some _ => exact recorded.write_other track level' lba count data
      · intro _ m' inv'
        exact ⟨t, inv', recorded⟩

theorem sound_step {volumeOf : D → Option Nat} (sound : Sound s.machine s.ledger) {event : Answers D × Call D}
    (orderly : Orderly volumeOf s event) : Sound (s.step event).machine (s.step event).ledger := by
  obtain ⟨t, inv, recorded⟩ := sound
  obtain ⟨io, call⟩ := event
  have lands : Lands io s.machine := orderly.headers
  have events : ∀ index volume, s.machine.volume index = some volume →
      volume.events + maxMembers < 2 ^ 64 := orderly.events
  have condition := orderly.call
  refine settle_of_wp (x := call.action io)
    (P := fun success m' => Sound m' (if success then call.record s.machine s.ledger else s.ledger)) ?_
  cases call with
  | create inUse _ _ _ members =>
    obtain ⟨unknown, fresh, equal⟩ := condition
    rw [Call.action, wp_bind]
    exact create_sound inv recorded lands unknown fresh equal
  | assembleFrom members =>
    rw [Call.action, wp_bind]
    refine wp_mono (assembleFrom_sound inv recorded condition) ?_ (fun _ _ h => h)
    intro _ m' sound
    exact sound
  | read index lba count available =>
    rw [Call.action, wp_bind]
    refine wp_mono (read_sound inv recorded lands (events index)) ?_ (fun _ _ h => h)
    intro run m' sound
    cases run with
    | none => exact sound
    | some run => exact sound
  | write index lba count available _ =>
    exact write_sound inv recorded lands (events index) condition
  | fail index slot =>
    refine wp_mono (fail_sound inv recorded lands (events index)) ?_ (fun _ _ h => h)
    intro success m' sound
    cases success with
    | false => exact sound
    | true => exact sound
  | replace inUse index slot _ =>
    obtain ⟨free, spare⟩ := condition
    rw [Call.action, wp_bind]
    exact replace_sound inv recorded lands (events index) free spare
  | stop index =>
    refine wp_mono (stop_sound inv recorded index) ?_ (fun _ _ h => h)
    intro success m' sound
    cases success with
    | false => exact sound
    | true => exact sound

omit [DecidableEq D] in
theorem sound_initial (disks : D → Disk) :
    Sound (System.initial disks).machine (System.initial disks).ledger := by
  have empty : ∀ {index volume}, (Machine.initial disks).volume index ≠ some volume := by
    intro index volume
    unfold Machine.volume Machine.initial
    split <;> simp
  refine ⟨fun _ => none, ⟨?_, ?_, exclusive_initial disks, ?_, nofun, nofun⟩, fun _ => ?_, nofun⟩
  · intro _ _ found
    exact (empty found).elim
  · intro _ _ _ _ found
    exact (empty found).elim
  · intro _ _ _ _ found
    exact (empty found).elim
  · exact ⟨fun _ => rfl, fun _ => rfl⟩

theorem mirrors_agree_of_orderly (volumeOf : D → Option Nat) (disks : D → Disk) (events : List (Answers D × Call D))
    (orderly : Run.Along System.step (Orderly volumeOf) (System.initial disks) events) :
    Run.Throughout System.step MirrorsAgree (System.initial disks) events :=
  Run.throughout_of_along (fun _ _ sound ok => sound_step sound ok)
    (fun _ sound => mirrorsAgree_of_sound sound) (sound_initial disks) orderly

theorem events_of_all {m : Machine (Fin 2)} (h : ((range maxVolumes).all fun index =>
      (m.volumes index).all fun volume => volume.events + maxMembers < 2 ^ 64) = true)
    (index : Nat) (volume : Volume (Fin 2)) (found : m.volume index = some volume) :
    volume.events + maxMembers < 2 ^ 64 := by
  have bound := volume_bound found
  rw [Machine.volume, if_pos bound] at found
  have all := all_eq_true.mp h index (mem_range.mpr bound)
  rw [found] at all
  simpa using all

def currentHeader : Header := ⟨0, .mirror, 2, 0, 8, 2, 2⟩

def staleHeader : Header := ⟨0, .mirror, 2, 1, 8, 1, 0⟩

theorem complete_of_stale {s : System (Fin 2)} {entries : List (Fin 2 × Header)}
    (headers : entries = [(0, currentHeader), (1, staleHeader)])
    (known : (s.ledger 0).map Ledger.synced = some 1) (usable : s.machine.usable 0 = 1)
    {first : Fin 2 × Header} {rest : List (Fin 2 × Header)} (readable : entries = first :: rest) :
    Complete s first rest := by
  obtain ⟨rfl, rfl⟩ := cons.inj (readable.symm.trans headers)
  have keptIs : ∀ slot, kept (0, currentHeader) [((1 : Fin 2), staleHeader)] slot =
      if slot = 1 then some (1, staleHeader) else if slot = 0 then some (0, currentHeader) else none := by
    intro slot
    by_cases one : slot = 1
    · subst one
      rfl
    by_cases zero : slot = 0
    · subst zero
      rfl
    · simp [kept, currentHeader, staleHeader, one, zero, Ne.symm one, Ne.symm zero]
  constructor
  · intro slot entry held newest slot' bound working
    have entryIs : entry = (0, currentHeader) := by
      rw [keptIs] at held
      split_ifs at held
      · obtain rfl := some.inj held
        have := newest 0 (0, currentHeader) rfl
        exact absurd this (by decide)
      · exact (some.inj held).symm
    subst entryIs
    have zero : slot' = 0 := by
      have cases : slot' = 0 ∨ slot' = 1 := by
        change slot' < 2 at bound
        omega
      rcases cases with zero | rfl
      · exact zero
      · exact absurd working (by decide)
    subst zero
    exact ⟨(0, currentHeader), rfl, rfl⟩
  · obtain ⟨ledger, noted, synced⟩ := map_eq_some_iff.mp known
    exact ⟨ledger, noted, 0, (0, currentHeader), by decide, rfl, (usable.trans synced.symm).le⟩

def degraded : List (Answers (Fin 2) × Call (Fin 2)) :=
  [(working, .create (fun _ => false) 0 .mirror 0 [0, 1]), (working, .fail 0 1),
    (working, .write 0 0 1 1 fun _ => Buffer.ofFn fun _ => 1), (working, .stop 0),
    (working, .assembleFrom [0, 1])]

theorem degraded_mirror_agrees :
    Run.Throughout System.step MirrorsAgree (System.initial fun _ : Fin 2 => blank 2) degraded := by
  apply mirrors_agree_of_orderly fun _ => none
  refine ⟨⟨fun _ _ => rfl, events_of_all (by decide +kernel), fun _ _ => rfl, rfl, ?_, ?_⟩,
    ⟨fun _ _ => rfl, events_of_all (by decide +kernel), fun _ _ => rfl, trivial⟩,
    ⟨fun _ _ => rfl, events_of_all (by decide +kernel), fun _ _ => rfl, fun _ _ _ => .inr nofun⟩,
    ⟨fun _ _ => rfl, events_of_all (by decide +kernel), fun _ _ => rfl, trivial⟩,
    ⟨fun _ _ => rfl, events_of_all (by decide +kernel), fun _ _ => rfl, ?_⟩, trivial⟩
  · have blank : ∀ member, (Machine.initial fun _ : Fin 2 => blank 2).header member = none := by
      decide +kernel
    intro member header read
    exact absurd (read.symm.trans (blank member)) nofun
  · intro _ _ _ _ _ _ _
    rfl
  · intro _ _ readable
    exact complete_of_stale (by decide +kernel) (by decide +kernel) (by decide +kernel) readable

def absence : List (Answers (Fin 2) × Call (Fin 2)) :=
  [(working, .create (fun _ => false) 0 .mirror 0 [0, 1]), (working, .stop 0),
    (working, .assembleFrom [0]), (working, .write 0 0 1 1 fun _ => Buffer.ofFn fun _ => 1),
    (working, .stop 0), (working, .assembleFrom [0, 1])]

theorem absent_member_comes_back_in_service :
    ¬ MirrorsAgree (Run.final System.step (System.initial fun _ : Fin 2 => blank 2) absence) := by
  generalize last : Run.final (System.step (D := Fin 2)) _ _ = s
  have volume : (s.machine.volume 0).map (fun volume =>
      ((volume.level, volume.count, volume.sectors), (volume.failed 0, volume.failed 1),
        volume.members 0, volume.members 1)) =
      some ((.mirror, 2, 1), (false, false), some 0, some 1) := by
    rw [← last]
    decide +kernel
  have data : ((s.machine.disks 0).data 0).byte 0 = 1 ∧ ((s.machine.disks 1).data 0).byte 0 = 0 := by
    rw [← last]
    decide +kernel
  obtain ⟨v, found, fields⟩ := map_eq_some_iff.mp volume
  simp only [Prod.mk.injEq] at fields
  obtain ⟨⟨level, count, sectors⟩, ⟨working, working'⟩, member, member'⟩ := fields
  intro agree
  have same := agree.equal 0 v found level 0 0 1 1 ⟨by omega, working, member⟩
    ⟨by omega, working', member'⟩ 0 (by omega)
  rw [same, data.2] at data
  exact absurd data.1 (by decide)

end AerOS.Proof.Raid
