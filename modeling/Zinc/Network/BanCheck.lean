import Mathlib.Data.List.Perm.Basic
import Zinc.Network.Session

/-! The ban check of Config Info. The handler stops at the first ban of the list
that is meant for the player, and asks afterwards whether that ban is over. A ban
that is over therefore hides every later one: the decision is right, in any order
of the list, exactly when the bans for a player are over together. Config Ack does
not look at bans at all. -/

namespace Zinc.Network

open Throw History Buffer Buffer.ByteBuffer ZincConnection

variable {host : Host} {moment : Moment} {c c' : ZincConnection} {i : Input} {ban : BanData}

/-! ### The decision -/

namespace BanData

/-- A ban holds for good, or until its time has passed. -/
def InForce (now : ℤ) (ban : BanData) : Prop :=
  ban.isTemporaryban = false ∨ now < ban.banTime + ban.time

/-- A ban that the server takes for over. A difference of times that does not fit a
`long` is undefined. -/
def Over (now : ℤ) (ban : BanData) : Prop :=
  ban.isTemporaryban = true ∧ 0 ≤ now - ban.banTime ∧ ban.time ≤ now - ban.banTime ∧
    now - ban.banTime < 2 ^ 63

theorem Over.not_inForce {now : ℤ} (h : ban.Over now) : ¬ ban.InForce now := by
  rcases h with ⟨htemp, -, htime, -⟩
  rintro (hperm | hnow)
  · rw [htemp] at hperm
    cases hperm
  · omega

theorem not_inForce_of_active {now : ℤ} (h : ban.active now = false) : ¬ ban.InForce now := by
  simp only [active, Bool.not_eq_false', Bool.and_eq_true, decide_eq_true_eq] at h
  rcases h with ⟨⟨htemp, -⟩, htime⟩
  rintro (hperm | hnow)
  · rw [htemp] at hperm
    cases hperm
  · omega

end BanData

/-- No ban for the player is in force. -/
def NoBan (host : Host) (moment : Moment) (c : ZincConnection) : Prop :=
  ∀ ban ∈ moment.bans, ban.isFor host.config c = true → ¬ ban.InForce moment.now

/-- Config Info goes on behind the ban check. -/
def Continues (host : Host) (moment : Moment) (c : ZincConnection) : Prop :=
  ∃ c', checkBan host moment c = .ok (false, c')

/-- The decision of the ban check is right, and the order of the bans plays no role. -/
def Decides (host : Host) (moment : Moment) (c : ZincConnection) : Prop :=
  (Continues host moment c ↔ NoBan host moment c) ∧
    ∀ bans, bans.Perm moment.bans → (Continues host { moment with bans } c ↔ Continues host moment c)

/-- The bans for the player are all over, or none is and one is in force. -/
def Settled (host : Host) (moment : Moment) (c : ZincConnection) : Prop :=
  (∀ ban ∈ moment.bans, ban.isFor host.config c = true → ban.Over moment.now) ∨
    ((∃ ban ∈ moment.bans, ban.isFor host.config c = true ∧ ban.InForce moment.now) ∧
      ∀ ban ∈ moment.bans, ban.isFor host.config c = true → ¬ ban.Over moment.now)

/-- A ban lets the player pass exactly when it is over. -/
theorem sendBanMessage_eq_false :
    (∃ c', c.sendBanMessage host moment ban = .ok (false, c')) ↔ ban.Over moment.now := by
  unfold sendBanMessage BanData.timePassed subLong BanData.Over
  cases htemp : ban.isTemporaryban with
  | false =>
    simp only [Bool.false_eq_true, if_false, ok_bind, false_and, iff_false, not_exists]
    intro c' h
    rw [if_neg (by omega)] at h
    rcases bind_eq_ok.mp h with ⟨c₁, -, h⟩
    cases (Prod.mk.inj (Except.ok.inj h)).1
  | true =>
    simp only [if_true, true_and]
    by_cases hfits : -2 ^ 63 ≤ moment.now - ban.banTime ∧ moment.now - ban.banTime < 2 ^ 63
    · rw [if_pos hfits, ok_bind]
      by_cases hover : 0 ≤ moment.now - ban.banTime ∧ ban.time ≤ moment.now - ban.banTime
      · rw [if_pos hover]
        exact ⟨fun _ => ⟨hover.1, hover.2, hfits.2⟩, fun _ => ⟨c, rfl⟩⟩
      · rw [if_neg hover]
        refine ⟨fun ⟨c', h⟩ => ?_, fun h => absurd ⟨h.1, h.2.1⟩ hover⟩
        rcases bind_eq_ok.mp h with ⟨c₁, -, h⟩
        cases (Prod.mk.inj (Except.ok.inj h)).1
    · rw [if_neg hfits, error_bind]
      refine ⟨fun ⟨c', h⟩ => (nomatch h), fun h => absurd ⟨?_, h.2.2⟩ hfits⟩
      omega

/-- The first ban for the player decides. -/
theorem continues_iff :
    Continues host moment c ↔ ∀ ban, matchedBan host moment c = some ban → ban.Over moment.now := by
  unfold Continues checkBan
  cases hmatched : matchedBan host moment c with
  | none => simp
  | some ban => simp [sendBanMessage_eq_false]

/-- Any ban for the player can stand in front. -/
theorem exists_perm_matchedBan (hmem : ban ∈ moment.bans) (hfor : ban.isFor host.config c = true) :
    ∃ bans, bans.Perm moment.bans ∧ matchedBan host { moment with bans } c = some ban := by
  rcases List.append_of_mem hmem with ⟨before, after, hbans⟩
  refine ⟨ban :: (before ++ after), ?_, List.find?_cons_of_pos hfor⟩
  rw [hbans]
  exact List.perm_middle.symm

theorem Settled.continues_iff (h : Settled host moment c) (bans : List BanData)
    (hperm : bans.Perm moment.bans) : Continues host { moment with bans } c ↔ NoBan host moment c := by
  rw [Network.continues_iff]
  have hfound : ∀ ban, matchedBan host { moment with bans } c = some ban →
      ban ∈ moment.bans ∧ ban.isFor host.config c = true := fun ban hmatched =>
    ⟨hperm.subset (List.mem_of_find?_eq_some hmatched), List.find?_some hmatched⟩
  rcases h with hover | ⟨⟨ban, hmem, hfor, hinForce⟩, hnone⟩
  · refine ⟨fun _ ban hmem hfor => (hover ban hmem hfor).not_inForce, fun _ ban hmatched => ?_⟩
    exact hover ban (hfound ban hmatched).1 (hfound ban hmatched).2
  · refine ⟨fun hall => ?_, fun hno => absurd hinForce (hno ban hmem hfor)⟩
    cases hmatched : matchedBan host { moment with bans } c with
    | none => exact absurd hfor (List.find?_eq_none.mp hmatched ban (hperm.symm.subset hmem))
    | some first =>
      exact absurd (hall first hmatched) (hnone first (hfound first hmatched).1 (hfound first hmatched).2)

/-- A check that decides, in every order of the bans, finds them settled. -/
theorem Decides.settled (h : Decides host moment c) : Settled host moment c := by
  rcases h with ⟨hdecides, horder⟩
  have hover : ∀ ban ∈ moment.bans, ban.isFor host.config c = true →
      (ban.Over moment.now ↔ NoBan host moment c) := by
    intro ban hmem hfor
    rcases exists_perm_matchedBan hmem hfor with ⟨bans, hperm, hmatched⟩
    rw [← hdecides, ← horder bans hperm, continues_iff]
    exact ⟨fun h first hfirst => Option.some.inj (hmatched.symm.trans hfirst) ▸ h,
      fun h => h ban hmatched⟩
  by_cases hno : NoBan host moment c
  · exact .inl fun ban hmem hfor => (hover ban hmem hfor).mpr hno
  · refine .inr ⟨?_, fun ban hmem hfor h => hno ((hover ban hmem hfor).mp h)⟩
    simpa [NoBan] using hno

/-- The check decides exactly when the bans for the player are settled. -/
theorem decides_iff : Decides host moment c ↔ Settled host moment c := by
  constructor
  · exact Decides.settled
  · intro h
    exact ⟨h.continues_iff moment.bans (List.Perm.refl _), fun bans hperm =>
      (h.continues_iff bans hperm).trans (h.continues_iff moment.bans (List.Perm.refl _)).symm⟩

/-- A player who is banned for good and had a ban that is over. -/
def sampleBan (isTemporaryban : Bool) : BanData where
  isIpBan := false
  playerIp := []
  playerName := [65]
  playerUUID := nilUUID
  banTime := 0
  isTemporaryban := isTemporaryban
  time := 0
  reason := .new .new
  banId := []
  bannedBy := []

/-- The ban that is over hides the one for good. -/
theorem not_decides : ¬ ∀ host moment c, Decides host moment c := by
  intro h
  have hsettled := (h sampleHost (sampleMoment [sampleBan true, sampleBan false])
    { waiting [] with playerInfo := ⟨[65], nilUUID, []⟩ }).settled
  rcases hsettled with hover | ⟨-, hnone⟩
  · exact absurd (hover (sampleBan false) (by simp [sampleMoment]) (by decide)).1 (by decide)
  · refine hnone (sampleBan true) (by simp [sampleMoment]) (by decide) ⟨rfl, ?_, ?_, ?_⟩
    all_goals decide

/-! ### Runs -/

variable {past : Past ZincConnection Input}

/-- A Config Info at a moment at which no ban for the player is in force. -/
def Cleared (host : Host) (c : ZincConnection) (i : Input) : Prop :=
  ConfigInfo c i ∧ NoBan host i.moment c

/-- The bans were consulted, and no ban message was sent. -/
structure Entered (host : Host) (past : Past ZincConnection Input) : Prop where
  cleared : ∃ x ∈ past, Cleared host x.1 x.2
  unbanned : ∀ x ∈ past, ConfigInfo x.1 x.2 → ¬ Banned host x.1 x.2

/-- Config Ack waits for the configuration and is not sent behind a ban message, and
the bans that Config Info finds for a player are in force together. -/
structure Cautious (host : Host) (past : Past ZincConnection Input) (c : ZincConnection) (i : Input) :
    Prop where
  configured : ConfigAck c i → (State.config, 6) ∈ c.view.sent
  unbanned : ConfigAck c i → ∀ x ∈ past, ConfigInfo x.1 x.2 → ¬ Banned host x.1 x.2
  together : ConfigInfo c i → ∀ ban ∈ i.moment.bans, ban.isFor host.config c = true →
    ban.InForce i.moment.now → ∀ ban' ∈ i.moment.bans, ban'.isFor host.config c = true →
      ban'.InForce i.moment.now

structure BanInvariant (host : Host) (past : Past ZincConnection Input) (view : View) : Prop where
  configured : (State.config, 6) ∈ view.sent → ∃ x ∈ past, Cleared host x.1 x.2
  play : view.state = .play → Entered host past

/-- If the first ban is over, and all are over together, then no ban is in force. -/
theorem Cautious.cleared (h : Cautious host past c i) (hinfo : ConfigInfo c i)
    (hban : ¬ Banned host c i) : Cleared host c i := by
  refine ⟨hinfo, fun ban hmem hfor hinForce => ?_⟩
  cases hmatched : matchedBan host i.moment c with
  | none => exact List.find?_eq_none.mp hmatched ban hmem hfor
  | some first =>
    have hover : first.active i.moment.now = false :=
      Bool.eq_false_iff.mpr fun hactive => hban ⟨first, hmatched, hactive⟩
    apply BanData.not_inForce_of_active hover
    exact h.together hinfo ban hmem hfor hinForce first (List.mem_of_find?_eq_some hmatched)
      (List.find?_some hmatched)

theorem Entered.concat (h : Entered host past) (hinfo : ¬ ConfigInfo c i) :
    Entered host (past ++ [(c, i)]) := by
  rcases h.cleared with ⟨x, hx, hcleared⟩
  refine ⟨⟨x, List.mem_append_left _ hx, hcleared⟩, fun y hy hy' => ?_⟩
  rcases List.mem_append.mp hy with hold | hnew
  · exact h.unbanned y hold hy'
  · rw [List.mem_singleton.mp hnew] at hy'
    exact absurd hy' hinfo

/-- Nothing is lost when a packet sends something else. -/
theorem BanInvariant.sends {view : View} (h : BanInvariant host past c.view) {ids : List (BitVec 32)}
    (hsent : view.sent = (c.view.send ids).sent) (hids : c.state = .config → 6 ∉ ids)
    (hstate : view.state = .play → c.state = .play) :
    BanInvariant host (past ++ [(c, i)]) view where
  configured hmem := by
    rw [hsent] at hmem
    rcases View.mem_sent_send.mp hmem with hold | ⟨hconfig, hid⟩
    · rcases h.configured hold with ⟨x, hx, hcleared⟩
      exact ⟨x, List.mem_append_left _ hx, hcleared⟩
    · exact absurd hid (hids hconfig.symm)
  play hplay := by
    refine (h.play (hstate hplay)).concat fun hinfo => ?_
    rw [hinfo.1] at hstate
    cases hstate hplay

theorem BanInvariant.step {view : View} (h : BanInvariant host past c.view)
    (hcautious : Cautious host past c i) (heffect : Effect host c i view) :
    BanInvariant host (past ++ [(c, i)]) view := by
  cases heffect with
  | sends ids hlogin hconfig =>
    refine h.sends rfl (fun hstate => ?_) id
    rcases hconfig hstate with rfl | rfl | rfl <;> decide
  | handshake state hstate hnew =>
    refine @BanInvariant.sends _ _ _ _ _ h [] (by simp) (fun _ => by simp) ?_
    rintro rfl
    simp at hnew
  | accepted ids haccepted =>
    refine h.sends rfl (fun hstate => ?_) id
    rw [haccepted.loginStart.1] at hstate
    cases hstate
  | passed keyed hpassed => exact h.sends rfl (fun _ => by decide) id
  | unverified keyed hpassed => exact h.sends rfl (fun _ => by decide) id
  | loginAck hack =>
    exact @BanInvariant.sends _ _ _ _ _ h [] (by simp) (fun _ => by simp) State.noConfusion
  | configured registries hinfo hban =>
    have hcleared := hcautious.cleared hinfo hban
    refine ⟨fun _ => ⟨(c, i), List.mem_append_right _ (List.mem_singleton_self _), hcleared⟩, ?_⟩
    exact fun hplay => State.noConfusion (hinfo.1.symm.trans hplay)
  | banned hinfo hban => exact h.sends rfl (fun _ => by decide) id
  | configAck hack =>
    rcases h.configured (hcautious.configured hack) with ⟨x, hx, hcleared⟩
    have hentered : Entered host past := ⟨⟨x, hx, hcleared⟩, hcautious.unbanned hack⟩
    have hinfo : ¬ ConfigInfo c i := fun hinfo => absurd (hinfo.2.symm.trans hack.2) (by decide)
    exact ⟨fun _ => (hentered.concat hinfo).cleared, fun _ => hentered.concat hinfo⟩

/-- Whoever plays was looked up among the bans and never told of one. -/
theorem entered_of_play (h : ConnectionRun host past c)
    (hcautious : Always (Cautious host) past) (hstate : c.state = .play) : Entered host past := by
  refine (h.invariant (I := fun past c => BanInvariant host past c.view) ?_ ?_ hcautious).play hstate
  · intro c hc
    rw [hc.view_eq]
    exact ⟨fun hsent => by simp at hsent, State.noConfusion⟩
  · intro past c i c' hinv hcautious hstep
    exact hinv.step hcautious hstep.handles.1

/-- A client that is not banned meets the condition. -/
theorem entered_sample : ∃ past c, ConnectionRun sampleHost past c ∧ c.state = .play ∧
    Entered sampleHost past := by
  rcases login_run simple_sampleHost sampleClient (sampleMoment []) place_sampleHost rfl
    accepts_waiting rfl with ⟨c₁, c₂, c₃, c₄, hrun, hat₁, hat₂, hat₃, hat₄⟩
  rcases @configInfo_step sampleHost (sampleMoment []) c₄ _ rfl rfl 0
    ⟨[], 0, 0, false, 0, 0, false, false, 0⟩ (by decide) _ hat₄ with ⟨c₅, h₅, hat₅⟩
  rcases @configAck_step sampleHost c₅ _ (sampleMoment []) 0 _ hat₅ with ⟨c₆, h₆, hat₆⟩
  have hrun₆ := (hrun.next h₅).next h₆
  refine ⟨_, c₆, hrun₆, hat₆.state_eq, entered_of_play hrun₆ ?_ hat₆.state_eq⟩
  have hearly : ∀ {past c i}, c.state ≠ .config → Cautious sampleHost past c i := by
    intro past c i hstate
    exact ⟨fun hack => absurd hack.1 hstate, fun hack => absurd hack.1 hstate,
      fun hinfo => absurd hinfo.1 hstate⟩
  simp only [always_concat, always_nil, true_and]
  refine ⟨⟨⟨⟨⟨hearly (by decide), hearly ?_⟩, hearly ?_⟩, hearly ?_⟩, ?_⟩, ?_⟩
  · rw [hat₁.state_eq]; decide
  · rw [hat₂.state_eq]; decide
  · rw [hat₃.state_eq]; decide
  · refine ⟨fun hack => absurd (show (0 : BitVec 32) = 3 from hack.2) (by decide),
      fun hack => absurd (show (0 : BitVec 32) = 3 from hack.2) (by decide), fun _ ban hmem => ?_⟩
    exact absurd hmem (List.not_mem_nil)
  · refine ⟨fun _ => by rw [hat₅.sent_eq]; decide, fun _ x hx _ => ?_,
      fun hinfo => absurd (show (3 : BitVec 32) = 0 from hinfo.2) (by decide)⟩
    rintro ⟨ban, hmatched, -⟩
    simp only [List.nil_append, List.cons_append, List.mem_cons, List.not_mem_nil, or_false] at hx
    rcases hx with rfl | rfl | rfl | rfl | rfl
    all_goals cases hmatched

/-- Whatever the server, Config Ack gets a client to the state `Play` whose bans nobody
looked up. -/
theorem not_entered_of_play : ¬ ∃ host, ∀ past c, ConnectionRun host past c → c.state = .play →
    Entered host past := by
  rintro ⟨host, h⟩
  rcases @handshake_step host (waiting []) (sampleMoment []) 0 accepts_waiting rfl with ⟨c₁, h₁, hat₁⟩
  rcases @loginAck_step host c₁ [] (sampleMoment []) 0 [] hat₁ with ⟨c₂, h₂, hat₂⟩
  rcases @configAck_step host c₂ [] (sampleMoment []) 0 [] hat₂ with ⟨c₃, h₃, hat₃⟩
  rcases (h _ c₃ (((Run.start accepts_waiting).next h₁).next h₂ |>.next h₃) hat₃.state_eq).cleared with
    ⟨x, hx, hinfo, -⟩
  simp only [List.nil_append, List.cons_append, List.mem_cons, List.not_mem_nil, or_false] at hx
  rcases hx with rfl | rfl | rfl
  · exact State.noConfusion hinfo.1
  · exact State.noConfusion (hat₁.state_eq.symm.trans hinfo.1)
  · exact absurd (show (3 : BitVec 32) = 0 from hinfo.2) (by decide)

end Zinc.Network
