import AerOS.Proof.Raid.Changes

namespace AerOS.Proof.Raid
open AerOS.Raid Lib Lib.Action Function List Option
variable {D : Type} {io : Answers D} {m m' : Machine D} {t t' : Tracks D}
  {index : Nat} {volume : Volume D} {k : Track D}
variable {k' : Track D} {slots : List Nat} {data : Run}

theorem Inv.tick (inv : Inv m t) : Inv m.tick t := by
  have volumes : m.tick.volumes = m.volumes := rfl
  exact inv_congr volumes rfl inv

def Track.bare (k : Track D) : Track D := { k with image := fun _ _ => Buffer.zero }

structure Track.Alike (k k' : Track D) : Prop where
  level : k.level = k'.level
  count : k.count = k'.count
  events : k.events = k'.events
  failed : k.failed = k'.failed
  synced : k.synced = k'.synced

theorem Track.alike_of_bare (h : k.bare = k'.bare) : k.Alike k' := by
  have level := congrArg Track.level h
  have count := congrArg Track.count h
  have events := congrArg Track.events h
  have failed := congrArg Track.failed h
  have synced := congrArg Track.synced h
  exact ⟨level, count, events, failed, synced⟩

theorem Follows.alike (follows : Follows m volume k) (alike : k.Alike k') : Follows m volume k' := by
  refine ⟨alike.level ▸ follows.level, alike.count ▸ follows.count, alike.events ▸ follows.events, ?_,
    follows.few, follows.bound, follows.filled, alike.synced ▸ follows.small, follows.positive,
    follows.within, follows.stripe⟩
  rw [← alike.count, ← alike.events, ← alike.failed]
  exact follows.failed

theorem Inv.retouch (inv : Inv m t) (volumes : m'.volumes = m.volumes)
    (header : ∀ member, m'.header member = m.header member)
    (sectors : ∀ member, (m'.disks member).sectors = (m.disks member).sectors)
    (bare : ∀ uuid, (t' uuid).map Track.bare = (t uuid).map Track.bare)
    (holds : ∀ member header k', m.header member = some header → t' header.uuid = some k' →
      header.events = k'.events → Holds m' k' header.slot member) : Inv m' t' := by
  have volumeIs := volume_congr volumes
  have back : ∀ {uuid k'}, t' uuid = some k' → ∃ k, t uuid = some k ∧ k.bare = k'.bare := by
    intro uuid k' track
    have same := bare uuid
    rw [track, map_some] at same
    exact map_eq_some_iff.mp same.symm
  refine ⟨?_, ?_, exclusive_congr m m' volumes inv.exclusive, ?_, ?_, ?_⟩
  · intro j other found
    rw [volumeIs] at found
    obtain ⟨k, track, follows⟩ := inv.follows j other found
    have same := bare other.uuid
    rw [track, map_some] at same
    obtain ⟨k', track', eq⟩ := map_eq_some_iff.mp same
    exact ⟨k', track', (follows.congr sectors).alike (Track.alike_of_bare eq.symm)⟩
  · simpa only [volumeIs] using inv.apart
  · simpa only [volumeIs, header] using inv.carried
  · intro member h k' read track
    rw [header] at read
    obtain ⟨k, track₀, eq⟩ := back track
    have fits := inv.fits member h k read track₀
    have alike := Track.alike_of_bare eq
    refine ⟨alike.level ▸ fits.level, alike.count ▸ fits.count, alike.events ▸ fits.events,
      alike.count ▸ fits.bound, alike.count ▸ alike.failed ▸ fits.failed,
      alike.failed ▸ fits.working, ?_, holds member h k' read track⟩
    rw [Machine.usable, sectors]
    exact fits.usable
  · intro uuid k' track events less
    obtain ⟨k, track₀, eq⟩ := back track
    have alike := Track.alike_of_bare eq
    obtain ⟨slot, bound, working, gone⟩ := inv.superseded uuid k track₀ events (alike.events ▸ less)
    refine ⟨slot, alike.count ▸ bound, alike.failed ▸ working, fun member h read => ?_⟩
    rw [header] at read
    exact gone member h read

theorem Inv.store_idle [DecidableEq D] (inv : Inv m t) {member : D} {lba count : Nat} {run : Run}
    (below : lba + count ≤ m.usable member)
    (idle : ∀ header k, m.header member = some header → t header.uuid = some k →
      header.events = k.events → k.level ≠ .mirror) : Inv (m.store member lba count run) t := by
  have volumes : (m.store member lba count run).volumes = m.volumes := rfl
  apply inv.retouch volumes (header_store_below below run)
    (fun other => store_sectors m member other lba count run) (fun _ => rfl)
  intro other header k read track now
  have holds := (inv.fits other header k read track).current now
  by_cases same : other = member
  · subst same
    have level := idle header k read track now
    exact ⟨holds.place, fun mirror => absurd mirror level, fun mirror => absurd mirror level⟩
  · exact holds.congr (store_sectors m _ other _ _ _) fun _ _ => by rw [store_other same]

def Track.paint (k : Track D) (slot : Nat) (image : Nat → Sector) : Track D :=
  { k with image := update k.image slot image }

section
variable (inv : Inv m t) (found : m.volume index = some volume) (track : t volume.uuid = some k)
include inv found track

theorem Inv.store_serving [DecidableEq D] {slot : Nat} {member : D} (serves : volume.Serves slot member)
    {lba count : Nat} (run : Run) (below : lba + count ≤ m.usable member) :
    Inv (m.store member lba count run) (update t volume.uuid
      (some (k.paint slot ((m.store member lba count run).disks member).data))) := by
  obtain ⟨_, read₀, uuid₀, place₀, _, holds₀, -⟩ := inv.serving found track serves
  have volumes : (m.store member lba count run).volumes = m.volumes := rfl
  apply inv.retouch volumes (header_store_below below run)
    (fun other => store_sectors m member other lba count run)
  · intro uuid
    by_cases same : uuid = volume.uuid
    · subst same
      rw [update_self, track]
      rfl
    · rw [update_of_ne same]
  intro other header k' read track' now
  have sectors := store_sectors m member other lba count run
  by_cases here : other = member
  · subst here
    obtain rfl := mem_unique read₀ read
    rw [uuid₀, update_self] at track'
    obtain rfl := some.inj track'
    rw [place₀]
    refine ⟨holds₀.place, fun mirror => ?_, fun mirror sector bound => ?_⟩
    · rw [Machine.usable, sectors]
      exact holds₀.synced mirror
    · exact (congrFun (update_self slot _ k.image) sector).symm
  have data := store_other here (m := m) lba count run
  by_cases same : header.uuid = volume.uuid
  · rw [same, update_self] at track'
    obtain rfl := some.inj track'
    have holds := (inv.fits other header k read (same ▸ track)).current now
    have apart : header.slot ≠ slot := by
      intro eq
      have placed := holds.place
      rw [eq, holds₀.place] at placed
      exact here (some.inj placed).symm
    refine ⟨holds.place, fun mirror => ?_, fun mirror sector bound => ?_⟩
    · rw [Machine.usable, sectors]
      exact holds.synced mirror
    have kept := congrFun (update_of_ne apart
      ((m.store member lba count run).disks member).data k.image) sector
    refine Eq.trans ?_ kept.symm
    rw [data]
    exact holds.image mirror sector bound
  · rw [update_of_ne same] at track'
    have holds := (inv.fits other header k' read track').current now
    exact holds.congr sectors fun sector _ => by rw [data]

theorem markFailed_wp [DecidableEq D] (events : volume.events + 1 < 2 ^ 64) (lands : Lands io m) (slot : Nat) :
    wp (markFailed io index slot) (fun _ m' => (healthy volume ≤ 1 ∧ m' = m) ∨ (1 < healthy volume ∧
          Inv m' (update t volume.uuid (some (k.fail (update volume.failed slot true)))) ∧
          (∀ j, m'.volume j = if j = index then some (failing volume slot) else m.volume j) ∧
          SameData m m')) (fun _ _ => False) m := by
  unfold markFailed
  rw [wp_bind, wp_get, found]
  dsimp only
  split
  next many =>
    obtain ⟨_, bound, ne, works⟩ := other_of_healthy many slot
    refine wp_of_ok (bump_failing inv found track events lands bound ne works) ?_
    intro _ m' changed
    exact .inr ⟨many, changed⟩
  next few => exact .inl ⟨not_lt.mp few, rfl⟩

end

theorem memberFailed_wp (found : m.volume index = some volume) (slot : Nat)
    {ok : Bool → Machine D → Prop} {err : Fault → Machine D → Prop}
    (h : ok (volume.failed slot) m) : wp (memberFailed index slot) ok err m := by
  unfold memberFailed
  rw [wp_bind, wp_get, found]
  exact h

def Worn (t t' : Tracks D) : Prop :=
  ∀ uuid, (t uuid = none → t' uuid = none) ∧ ∀ k, t uuid = some k →
    ∃ k', t' uuid = some k' ∧ k'.level = k.level ∧ k'.count = k.count ∧ k'.synced = k.synced ∧
      k'.image = k.image ∧
      ∀ slot < k.count, k'.failed k'.events slot = false → k.failed k.events slot = false

theorem Worn.refl (t : Tracks D) : Worn t t := fun _ =>
  ⟨id, fun k track => ⟨k, track, rfl, rfl, rfl, rfl, fun _ _ h => h⟩⟩

theorem Worn.trans {t₁ t₂ t₃ : Tracks D} (h : Worn t₁ t₂) (h' : Worn t₂ t₃) : Worn t₁ t₃ := by
  intro uuid
  refine ⟨fun none => (h' uuid).1 ((h uuid).1 none), fun k track => ?_⟩
  obtain ⟨k₂, track₂, level₂, count₂, synced₂, image₂, fewer₂⟩ := (h uuid).2 k track
  obtain ⟨k₃, track₃, level₃, count₃, synced₃, image₃, fewer₃⟩ := (h' uuid).2 k₂ track₂
  exact ⟨k₃, track₃, level₃.trans level₂, count₃.trans count₂, synced₃.trans synced₂,
    image₃.trans image₂, fun slot bound working =>
      fewer₂ slot bound (fewer₃ slot (count₂ ▸ bound) working)⟩

theorem worn_fail (inv : Inv m t) (found : m.volume index = some volume)
    (track : t volume.uuid = some k) (slot : Nat) :
    Worn t (update t volume.uuid (some (k.fail (update volume.failed slot true)))) := by
  intro uuid
  by_cases same : uuid = volume.uuid
  · subst same
    refine ⟨fun none => absurd (none.symm.trans track) nofun, fun _ track' => ?_⟩
    obtain rfl := mem_unique track track'
    refine ⟨_, update_self _ _ _, rfl, rfl, rfl, rfl, fun slot' bound working => ?_⟩
    have now : (k.fail (update volume.failed slot true)).failed (k.events + 1) =
        update volume.failed slot true := update_self _ _ _
    change (k.fail (update volume.failed slot true)).failed (k.events + 1) slot' = false at working
    rw [now] at working
    rw [← (inv.follows_of found track).failed slot' bound]
    exact (working_update.mp working).2
  · rw [update_of_ne same]
    exact Worn.refl t uuid

theorem mirrorRead_wp [DecidableEq D] {snapshot : Volume D} {lba count : Nat} (inv : Inv m t)
    (found : m.volume index = some volume) (events : volume.events + slots.length < 2 ^ 64)
    (lands : Lands io m) :
    wp (mirrorRead io index snapshot lba count slots) (fun _ m' => ∃ t', Inv m' t' ∧ Worn t t')
      (fun _ _ => False) m := by
  induction slots generalizing m t volume with
  | nil => exact ⟨t, inv, Worn.refl t⟩
  | cons slot rest ih =>
    obtain ⟨k, track, -⟩ := inv.follows index volume found
    rw [length_cons] at events
    have fewer : volume.events + rest.length < 2 ^ 64 := by omega
    unfold mirrorRead
    rw [wp_bind]
    apply memberFailed_wp found
    cases volume.failed slot with
    | true => exact ih inv found fewer lands
    | false =>
      simp only [Bool.false_eq_true, if_false]
      cases snapshot.members slot with
      | none => exact ih inv found fewer lands
      | some _ =>
        rw [wp_bind]
        have ticked := inv.tick
        apply memberRead_wp
        · rw [wp_bind]
          have found' : m.tick.volume index = some volume := found
          refine wp_of_ok (markFailed_wp ticked found' track (by omega) lands slot) ?_
          rintro _ m₁ (⟨-, rfl⟩ | ⟨-, inv₁, volumes₁, same₁⟩)
          · exact ih ticked found' fewer lands
          have found₁ := volumes₁ index
          rw [if_pos rfl] at found₁
          have events₁ : (failing volume slot).events + rest.length < 2 ^ 64 := by
            change volume.events + 1 + rest.length < 2 ^ 64
            omega
          refine wp_of_ok (ih inv₁ found₁ events₁ (lands.of_sectors same₁.sectors)) ?_
          rintro _ m₂ ⟨t₂, inv₂, worn⟩
          exact ⟨t₂, inv₂, (worn_fail ticked found' track slot).trans worn⟩
        · intro _
          exact ⟨t, ticked, Worn.refl t⟩

section
variable (io) (index) (t₀ : Tracks D) (snapshot : Volume D) (extent lba : Nat) (old new : Nat → Sector)

structure Writing (m : Machine D) (t : Tracks D) (volume : Volume D) (k : Track D)
    (rest : List Nat) (wrote : Bool) : Prop where
  inv : Inv m t
  lands : Lands io m
  found : m.volume index = some volume
  track : t volume.uuid = some k
  others : ∀ uuid, uuid ≠ snapshot.uuid → t uuid = t₀ uuid
  uuid : volume.uuid = snapshot.uuid
  members : volume.members = snapshot.members
  count : volume.count = snapshot.count
  level : volume.level = .mirror
  sectors : volume.sectors = snapshot.sectors
  events : volume.events + rest.length < 2 ^ 64
  fewer : ∀ slot, volume.failed slot = false → snapshot.failed slot = false
  synced : k.synced = extent
  safe : ∀ slot member, snapshot.Serves slot member →
    (∀ turn, io.write turn member lba = .done) → volume.failed slot = false
  pending : ∀ slot ∈ rest, slot < volume.count → volume.failed slot = false →
    ∀ sector < extent, k.image slot sector = old sector
  past : ∀ slot < volume.count, slot ∉ rest → volume.failed slot = false →
    if wrote then ∀ sector < extent, k.image slot sector = new sector
    else (∀ sector < extent, k.image slot sector = old sector) ∧
      ∀ slot' < volume.count, volume.failed slot' = false → slot' = slot
  some_wrote : wrote = true → ∃ slot < volume.count, slot ∉ rest ∧ volume.failed slot = false

end

variable {t₀ : Tracks D} {snapshot : Volume D} {extent lba count : Nat} {old new : Nat → Sector}
  {rest : List Nat} {wrote : Bool} {slot : Nat} {member : D}

section
variable (w : Writing io index t₀ snapshot extent lba old new m t volume k (slot :: rest) wrote)
include w

theorem Writing.skip (failed : volume.failed slot = true) :
    Writing io index t₀ snapshot extent lba old new m t volume k rest wrote := by
  have events := w.events
  rw [length_cons] at events
  refine { w with
    events := by omega
    pending := fun slot' mem => w.pending slot' (mem_cons_of_mem slot mem)
    past := fun slot' bound notMem working => ?_
    some_wrote := fun wrote => ?_ }
  · apply w.past slot' bound ?_ working
    rintro (_ | ⟨_, mem⟩)
    · rw [failed] at working
      cases working
    · exact notMem mem
  · obtain ⟨slot', bound, notMem, working⟩ := w.some_wrote wrote
    exact ⟨slot', bound, fun mem => notMem (mem_cons_of_mem slot mem), working⟩

theorem Writing.past_wrote (bound : slot < volume.count) (working : volume.failed slot = false)
    {slot' : Nat} (bound' : slot' < volume.count) (notMem : slot' ∉ slot :: rest)
    (working' : volume.failed slot' = false) :
    wrote = true ∧ ∀ sector < extent, k.image slot' sector = new sector := by
  have past := w.past slot' bound' notMem working'
  cases wrote with
  | true => exact ⟨rfl, past⟩
  | false =>
    have same := past.2 slot bound working
    exact absurd (same ▸ mem_cons_self) notMem

theorem Writing.stored [DecidableEq D] (nodup : slot ∉ rest) (serves : volume.Serves slot member)
    (fits : lba + count ≤ volume.sectors) (newIs : ∀ sector, new sector =
      if lba ≤ sector ∧ sector < lba + count then data (sector - lba) else old sector) :
    ∃ t' k', Writing io index t₀ snapshot extent lba old new (m.tick.store member lba count data) t'
      volume k' rest true := by
  have follows := w.inv.follows_of w.found w.track
  have below := fits.trans (follows.within w.level slot member serves.member)
  have events := w.events
  rw [length_cons] at events
  refine ⟨_, _, { w with
    inv := w.inv.tick.store_serving w.found w.track serves data below
    lands := w.lands.of_sectors fun other => store_sectors m.tick member other lba count data
    track := update_self _ _ _
    others := fun uuid ne => ?_
    events := by omega
    pending := fun slot' mem bound' working' sector inside => ?_
    past := fun slot' bound' notMem working' => ?_
    some_wrote := fun _ => ⟨slot, serves.bound, nodup, serves.working⟩ }⟩
  · rw [update_of_ne (w.uuid ▸ ne)]
    exact w.others uuid ne
  · have apart : slot' ≠ slot := fun same => nodup (same ▸ mem)
    refine Eq.trans (congrFun (update_of_ne apart _ k.image) sector) ?_
    exact w.pending slot' (mem_cons_of_mem slot mem) bound' working' sector inside
  intro sector inside
  by_cases here : slot' = slot
  · subst here
    refine Eq.trans (congrFun (update_self slot' _ k.image) sector) ?_
    obtain ⟨-, -, -, -, -, holds, -⟩ := w.inv.serving w.found w.track serves
    have before : (m.tick.disks member).data sector = old sector := by
      refine (holds.image (follows.level ▸ w.level) sector (w.synced.symm ▸ inside)).trans ?_
      exact w.pending slot' mem_cons_self bound' working' sector inside
    rw [store_data, newIs, before]
  · refine Eq.trans (congrFun (update_of_ne here _ k.image) sector) ?_
    have notMem' : slot' ∉ slot :: rest := by
      rintro (_ | ⟨_, mem⟩)
      · exact here rfl
      · exact notMem mem
    exact (w.past_wrote serves.bound serves.working bound' notMem' working').2 sector inside

end

def Keeps (io : Answers D) (snapshot : Volume D) (lba count : Nat) (old : Nat → Sector) : Prop :=
  (∃ slot member, snapshot.Serves slot member ∧ ∀ turn, io.write turn member lba = .done) ∨
  ∀ slot member, snapshot.Serves slot member → ∀ turn left,
    io.write turn member lba = .failed left → ∀ sector < count, left sector = old (lba + sector)

theorem Writing.lost [DecidableEq D] (w : Writing io index t₀ snapshot extent lba old new m t volume k (slot :: rest)
    wrote) (nodup : slot ∉ rest) (serves : volume.Serves slot member)
    (fits : lba + count ≤ volume.sectors) (keeps : Keeps io snapshot lba count old) {turn : Nat}
    {left : Run} (answer : io.write turn member lba = .failed left) : wp (markFailed io index slot)
      (fun _ m' => ∃ t' volume' k',
        Writing io index t₀ snapshot extent lba old new m' t' volume' k' rest wrote)
      (fun _ _ => False) (m.tick.store member lba count left) := by
  have follows := w.inv.follows_of w.found w.track
  have below := fits.trans (follows.within w.level slot member serves.member)
  have events := w.events
  rw [length_cons] at events
  have started : snapshot.Serves slot member :=
    ⟨w.count ▸ serves.bound, w.fewer slot serves.working, w.members ▸ serves.member⟩
  have inv₁ := w.inv.tick.store_serving w.found w.track serves left below
  have lands₁ := w.lands.of_sectors fun other => store_sectors m.tick member other lba count left
  have notDone : ∀ {other}, snapshot.Serves slot other → ¬ ∀ turn, io.write turn other lba = .done := by
    intro other same done
    obtain rfl := mem_unique started.member same.member
    exact absurd ((done turn).symm.trans answer) nofun
  have unpainted : ∀ {slot'} image, slot' ≠ slot → (k.paint slot image).image slot' = k.image slot' :=
    fun _ apart => update_of_ne apart _ _
  refine wp_of_ok (markFailed_wp inv₁ w.found (update_self _ _ _) (by omega) lands₁ slot) ?_
  rintro _ m' (⟨few, rfl⟩ | ⟨-, inv₂, volumes₂, same₂⟩)
  · -- The last copy stays in service: nothing has been written, and it has kept the old data.
    have only : ∀ slot' < volume.count, volume.failed slot' = false → slot' = slot :=
      fun slot' bound working => alone_of_healthy few bound serves.bound working serves.working
    have unwritten : wrote = false := by
      cases wrote with
      | false => rfl
      | true =>
        obtain ⟨slot', bound, notMem, working⟩ := w.some_wrote rfl
        exact absurd (only slot' bound working ▸ mem_cons_self) notMem
    subst unwritten
    have kept : ∀ sector < count, left sector = old (lba + sector) := by
      rcases keeps with ⟨slot', other, serves', done⟩ | all
      · have here := only slot' (w.count ▸ serves'.bound) (w.safe slot' other serves' done)
        exact absurd done (notDone (here ▸ serves'))
      · exact all slot member started turn left answer
    refine ⟨_, volume, _, { w with
      inv := inv₁
      lands := lands₁
      track := update_self _ _ _
      others := fun uuid ne => ?_
      events := by omega
      pending := fun slot' mem bound' working' => ?_
      past := fun slot' bound' notMem working' => ?_
      some_wrote := nofun }⟩
    · rw [update_of_ne (w.uuid ▸ ne)]
      exact w.others uuid ne
    · exact absurd (only slot' bound' working' ▸ mem) nodup
    obtain rfl := only slot' bound' working'
    refine ⟨fun sector inside => ?_, only⟩
    refine Eq.trans (congrFun (update_self slot' _ k.image) sector) ?_
    obtain ⟨-, -, -, -, -, holds, -⟩ := w.inv.serving w.found w.track serves
    have before : (m.tick.disks member).data sector = old sector := by
      refine (holds.image (follows.level ▸ w.level) sector (w.synced.symm ▸ inside)).trans ?_
      exact w.pending slot' mem_cons_self bound' working' sector inside
    rw [store_data, before]
    split
    · next _ =>
      rw [kept (sector - lba) (by omega)]
      congr 1
      omega
    · rfl
  have found₂ := volumes₂ index
  rw [if_pos rfl] at found₂
  have notMem_cons : ∀ {slot'}, slot' ≠ slot → slot' ∉ rest → slot' ∉ slot :: rest := by
    rintro slot' apart notMem (_ | ⟨_, mem⟩)
    · exact apart rfl
    · exact notMem mem
  refine ⟨_, failing volume slot, _, { w with
    inv := inv₂
    lands := lands₁.of_sectors same₂.sectors
    found := found₂
    track := update_self _ _ _
    others := fun uuid ne => ?_
    events := ?_
    fewer := fun slot' working => w.fewer slot' (working_update.mp working).2
    safe := fun slot' other serves' done => ?_
    pending := fun slot' mem bound' working' sector inside => ?_
    past := fun slot' bound' notMem working' => ?_
    some_wrote := fun wrote => ?_ }⟩
  · rw [update_of_ne (w.uuid ▸ ne), update_of_ne (w.uuid ▸ ne)]
    exact w.others uuid ne
  · change volume.events + 1 + rest.length < 2 ^ 64
    omega
  · by_cases here : slot' = slot
    · subst here
      exact absurd done (notDone serves')
    · exact working_update.mpr ⟨here, w.safe slot' other serves' done⟩
  · obtain ⟨apart, working⟩ := working_update.mp working'
    refine Eq.trans (congrFun (unpainted _ apart) sector) ?_
    exact w.pending slot' (mem_cons_of_mem slot mem) bound' working sector inside
  · obtain ⟨apart, working⟩ := working_update.mp working'
    obtain ⟨rfl, image⟩ := w.past_wrote serves.bound serves.working bound'
      (notMem_cons apart notMem) working
    intro sector inside
    exact (congrFun (unpainted _ apart) sector).trans (image sector inside)
  obtain ⟨slot', bound', notMem, working⟩ := w.some_wrote wrote
  have apart : slot' ≠ slot := by
    rintro rfl
    exact notMem mem_cons_self
  exact ⟨slot', bound', fun mem => notMem (mem_cons_of_mem slot mem), working_update.mpr ⟨apart, working⟩⟩

theorem mirrorWrite_wp [DecidableEq D] (w : Writing io index t₀ snapshot extent lba old new m t volume k slots wrote)
    (nodup : slots.Nodup) (bounds : ∀ slot ∈ slots, slot < snapshot.count)
    (fits : lba + count ≤ snapshot.sectors) (keeps : Keeps io snapshot lba count old)
    (newIs : ∀ sector, new sector =
      if lba ≤ sector ∧ sector < lba + count then data (sector - lba) else old sector) :
    wp (mirrorWrite io index snapshot lba count data slots wrote) (fun wrote' m' => ∃ t' volume' k',
        Writing io index t₀ snapshot extent lba old new m' t' volume' k' [] wrote')
      (fun _ _ => False) m := by
  induction slots generalizing m t volume k wrote with
  | nil => exact ⟨t, volume, k, w⟩
  | cons slot rest ih =>
    have bound : slot < volume.count := w.count ▸ bounds slot mem_cons_self
    have bounds' : ∀ slot' ∈ rest, slot' < snapshot.count := fun slot' mem =>
      bounds slot' (mem_cons_of_mem slot mem)
    obtain ⟨notMem, nodup'⟩ := nodup_cons.mp nodup
    unfold mirrorWrite
    rw [wp_bind]
    apply memberFailed_wp w.found
    cases working : volume.failed slot with
    | true => exact ih (w.skip working) nodup' bounds'
    | false =>
      simp only [Bool.false_eq_true, if_false]
      obtain ⟨member, held⟩ := (w.inv.follows_of w.found w.track).filled slot bound working
      have serves : volume.Serves slot member := ⟨bound, working, held⟩
      have fits' : lba + count ≤ volume.sectors := w.sectors ▸ fits
      rw [← w.members, held]
      rw [wp_bind]
      apply memberWrite_wp
      · intro _
        have within := (w.inv.follows_of w.found w.track).within w.level slot member held
        unfold Machine.usable at within
        omega
      · intro _ _
        obtain ⟨t', k', w'⟩ := w.stored notMem serves fits' newIs
        exact ih w' nodup' bounds'
      intro _ _ answer
      simp only [Bool.false_eq_true, if_false]
      rw [wp_bind]
      refine wp_of_ok (w.lost notMem serves fits' keeps answer) ?_
      rintro _ m' ⟨t', volume', k', w'⟩
      exact ih w' nodup' bounds'

variable {fuel here want : Nat}

theorem locateLinear_below {left slot start : Nat} (reached : start ≤ lba)
    (held : volume.members (locateLinear m volume lba want left slot start).1 = some member) :
    (locateLinear m volume lba want left slot start).2.1 +
      (locateLinear m volume lba want left slot start).2.2 ≤ m.usable member := by
  induction left generalizing slot start with
  | zero => exact Nat.zero_le _
  | succ left ih =>
    unfold locateLinear at held ⊢
    dsimp only at held ⊢
    split at held
    · next inside =>
      rw [held] at inside
      rw [if_pos (held ▸ inside)]
      rw [held]
      simp only [map_some, getD_some] at inside ⊢
      omega
    · next outside =>
      rw [if_neg outside]
      exact ih (not_lt.mp outside) held

theorem locate_below {k : Track D} (follows : Follows m volume k) (inside : here < volume.sectors)
    (held : volume.members (locate m volume here want).1 = some member) :
    (locate m volume here want).2.1 + (locate m volume here want).2.2 ≤ m.usable member := by
  cases level : volume.level with
  | linear | mirror =>
    have linear : locate m volume here want = locateLinear m volume here want volume.count 0 0 := by
      rw [locate, level]
    rw [linear] at held ⊢
    exact locateLinear_below (Nat.zero_le _) held
  | stripe =>
    obtain ⟨positive, divides, sectors, usable⟩ := follows.stripe level
    obtain ⟨-, _⟩ := stripe_below positive divides (sectors ▸ inside)
    have within := Nat.mod_lt here positive
    refine le_trans ?_ (usable _ member held)
    simp only [locate, level]
    omega

theorem spread_wp [DecidableEq D] {direction : Direction} {done : Nat} {buffer : Run}
    (inv : Inv m t) (found : m.volume index = some volume) (level : volume.level ≠ .mirror)
    (fits : lba + count ≤ volume.sectors) :
    wp (spread io volume lba count direction fuel done buffer) (fun _ m' => Inv m' t)
      (fun _ m' => Inv m' t) m := by
  induction fuel generalizing done buffer m with
  | zero =>
    unfold spread
    split
    · exact inv
    · exact inv
  | succ fuel ih =>
    obtain ⟨k, track, follows⟩ := inv.follows index volume found
    unfold spread
    split
    · exact inv
    next _ =>
      rw [wp_bind, wp_get]
      dsimp only
      cases held : volume.members (locate m volume (lba + done) (count - done)).1 with
      | none => exact inv
      | some member =>
        have inside : lba + done < volume.sectors := by omega
        have below := locate_below follows inside held
        have idle : ∀ header k', m.header member = some header → t header.uuid = some k' →
            header.events = k'.events → k'.level ≠ .mirror := by
          intro header k' read track' _
          obtain ⟨_, read', uuid, -⟩ := inv.carried index volume _ member found held
          obtain rfl := mem_unique read read'
          rw [uuid, track] at track'
          obtain rfl := some.inj track'
          exact follows.level ▸ level
        have stays : ∀ run : Run, Inv (m.tick.store member (locate m volume (lba + done) (count - done)).2.1
            (locate m volume (lba + done) (count - done)).2.2 run) t := fun run =>
          inv.tick.store_idle below idle
        rw [wp_bind]
        cases direction with
        | read =>
          apply memberRead_wp
          · exact inv.tick
          intro _
          exact ih inv.tick found
        | write _ =>
          unfold transferRun
          rw [wp_bind]
          apply memberWrite_wp
          · intro _
            exact inv.tick
          · intro _ _
            exact ih (stays _) found
          · intro left _ _
            exact stays left

structure CopyFrame (m m' : Machine D) (member : D) : Prop where
  volumes : m'.volumes = m.volumes
  header : ∀ other, m'.header other = m.header other
  sectors : ∀ other, (m'.disks other).sectors = (m.disks other).sectors
  other : ∀ other, other ≠ member → m'.disks other = m.disks other

theorem CopyFrame.refl (m : Machine D) (member : D) : CopyFrame m m member :=
  ⟨rfl, fun _ => rfl, fun _ => rfl, fun _ _ => rfl⟩

theorem CopyFrame.store [DecidableEq D] (frame : CopyFrame m m' member) (run : Run)
    (below : lba + count ≤ m.usable member) : CopyFrame m (m'.tick.tick.store member lba count run) member := by
  have usable : m'.tick.tick.usable member = m.usable member := congrArg (· - 1) (frame.sectors member)
  refine ⟨frame.volumes, fun other => ?_, fun other => ?_, fun other ne => ?_⟩
  · rw [header_store_below (usable ▸ below)]
    exact frame.header other
  · rw [store_sectors]
    exact frame.sectors other
  · rw [store_other ne]
    exact frame.other other ne

def Perfect (io : Answers D) : Prop :=
  ∀ turn disk lba, io.read turn disk lba = true ∧ io.write turn disk lba = .done

theorem copyOver_wp [DecidableEq D] {source : D} {sectors : Nat} {m₀ : Machine D}
    (apart : source ≠ member) (fitsSource : sectors ≤ m₀.usable source)
    (fits : sectors ≤ m₀.usable member) (enough : sectors ≤ lba + fuel) (frame : CopyFrame m₀ m member)
    (copied : ∀ sector < lba, sector < sectors →
      (m.disks member).data sector = (m₀.disks source).data sector) :
    wp (copyOver io source member sectors fuel lba) (fun success m' => CopyFrame m₀ m' member ∧
        (success = true → ∀ sector < sectors, (m'.disks member).data sector = (m₀.disks source).data sector) ∧
        (success = false → ¬ Perfect io)) (fun _ _ => False) m := by
  induction fuel generalizing lba m with
  | zero =>
    unfold copyOver
    rw [if_neg (by omega)]
    exact ⟨frame, fun _ sector inside => copied sector (by omega) inside, by simp⟩
  | succ fuel ih =>
    unfold copyOver
    split
    next _ =>
      exact ⟨frame, fun _ sector inside => copied sector (by omega) inside, by simp⟩
    next _ =>
      have small : lba + min (sectors - lba) runLength ≤ sectors := by omega
      have sourceIs := frame.other source apart
      rw [wp_bind]
      unfold memberRead
      simp only [wp_bind, wp_get, wp_modify]
      have ticked : CopyFrame m₀ m.tick member := ⟨frame.volumes, frame.header, frame.sectors, frame.other⟩
      split
      next =>
        simp only [wp_pure]
        rw [wp_bind]
        have below := small.trans fits
        apply memberWrite_wp
        · intro _
          have same : (m.tick.disks member).sectors = (m₀.disks member).sectors := frame.sectors member
          unfold Machine.usable at below
          omega
        · intro _ _
          apply ih
          · simp only [runLength]
            omega
          · exact frame.store _ below
          intro sector _ inside
          rw [store_data]
          split
          · next _ =>
            rw [sourceIs]
            congr 1
            omega
          · next =>
            exact copied sector (by omega) inside
        · intro _ _ answer
          refine ⟨frame.store _ below, by simp, fun _ perfect => ?_⟩
          exact absurd (answer.symm.trans (perfect _ _ _).2) (by simp)
      next unread =>
        refine ⟨ticked, by simp, fun _ perfect => unread ⟨?_, (perfect _ _ _).1⟩⟩
        rw [sourceIs]
        unfold Machine.usable at fitsSource
        omega

end AerOS.Proof.Raid
