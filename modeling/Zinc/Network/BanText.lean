import Zinc.Network.Ban
import Zinc.Network.Send
import Zinc.Network.Session
import Zinc.Text.Codec

/-! What a ban message tells. The elements of its list are compounds, but for one string; the
encoder takes the first element for the type of the list and writes an empty list when another
one has a different type. So whatever the ban, the configuration and the clock are, the bytes
that are sent are those of the message without its list. -/

namespace Zinc.Network

open Throw Buffer Buffer.ByteBuffer Nbt Nbt.NBTElement Text

/-! ### Mixed lists -/

/-- A list of more than one type is written as an empty one. -/
theorem encodeWith_list_mixed {settings : NBTSettings} (htype : settings.type = .endTag)
    {tag : Bytes} {elements : List NBTElement}
    (h : ∃ a ∈ elements, ∃ b ∈ elements, a.type ≠ b.type) :
    encodeWith settings (list tag elements) = encodeWith settings (list tag []) := by
  obtain ⟨a, ha, b, hb, hne⟩ := h
  have hforced : (if settings.type ≠ .endTag then settings.type else NBTElementType.list) =
      .list := if_neg (not_not.mpr htype)
  rw [encodeWith_list hforced rfl, encodeWith_list hforced rfl]
  cases elements with
  | nil => cases ha
  | cons first rest =>
    have hmixed : (first :: rest).any (fun child => first.type ≠ child.type) = true := by
      rw [List.any_eq_true]
      by_cases hfirst : first.type = a.type
      · exact ⟨b, hb, decide_eq_true (hfirst ▸ hne)⟩
      · exact ⟨a, ha, decide_eq_true hfirst⟩
    change (do
      encodeHead settings .list tag
      if (first :: rest).any (fun child => first.type ≠ child.type) then _ else _) = _
    rw [if_pos hmixed]
    rfl

theorem writeNBTElement_banText (title : String) {extra : List NBTElement}
    (h : ∃ a ∈ extra, ∃ b ∈ extra, a.type ≠ b.type) :
    writeNBTElement (banText title extra) = writeNBTElement (banText title []) := by
  have hlist : encodeWith .new (list (utf8 "extra") extra) =
      encodeWith .new (list (utf8 "extra") []) := encodeWith_list_mixed rfl h
  have hchildren : forEach (encodeWith .new) (banText title extra).childElements =
      forEach (encodeWith .new) (banText title []).childElements := by
    change forEach _ [_, _, _, list (utf8 "extra") extra] =
      forEach _ [_, _, _, list (utf8 "extra") []]
    simp only [forEach, hlist]
  unfold writeNBTElement
  rw [encodeWith_compound rfl rfl, encodeWith_compound rfl rfl, hchildren]
  rfl

/-- The line break is a string between compounds. -/
theorem mixed_banDetails (config : ZincConfig) (ban : BanData) :
    ∃ a ∈ banDetails config ban, ∃ b ∈ banDetails config ban, a.type ≠ b.type := by
  refine ⟨(TextComponent.colored "Reason: " "gray").encode, by simp [banDetails],
    string [] (utf8 "\n"), by simp [banDetails], ?_⟩
  rw [TextComponent.colored, TextComponent.encode]
  exact (by decide : NBTElementType.compound ≠ .string)

/-! ### The bytes of a message -/

theorem wellFormed_banText {title : String} (h : Short (utf8 title)) :
    (tree (banText title [])).WellFormed := by
  refine wellFormed_compound (by decide) ?_
  simp only [List.forall_mem_cons, List.not_mem_nil, false_implies, implies_true, and_true]
  refine ⟨child_string (by decide) (by decide), child_string (by decide) h,
    child_string (by decide) (by decide), ?_, by decide⟩
  rw [tree_of_list]
  exact .list (by decide) (by decide) (by simp) (by simp)

/-- The titles of the two messages. -/
def banTitles : List String :=
  ["You are temporarly banned for ", "You are permanently banned from this server\n\n"]

theorem short_banTitles : ∀ title ∈ banTitles, Short (utf8 title) := by decide +kernel

variable {host : Host} {moment : Moment} {ban : BanData} {c c' : ZincConnection}

/-- What is sent in state Config is a message with an empty list. -/
theorem sendBanMessage_output (hstate : c.state = .config)
    (h : c.sendBanMessage host moment ban = .ok (true, c')) :
    ∃ title ∈ banTitles, ∃ wire,
      c'.output = c.output ++ [⟨.config, 2, nbtBytes (banText title []), wire⟩] := by
  have hsend : ∀ title ∈ banTitles, ∀ extra, (∃ a ∈ extra, ∃ b ∈ extra, a.type ≠ b.type) →
      c.sendDisconnect host (banText title extra) = .ok c' → ∃ wire,
        c'.output = c.output ++ [⟨.config, 2, nbtBytes (banText title []), wire⟩] := by
    intro title htitle extra hmixed hdisconnect
    have hwrite := produces_writeNBTElement (writable_fresh true)
      (wellFormed_banText (short_banTitles title htitle)) rfl
    obtain ⟨buffer, hrun, hfresh⟩ := hwrite .new [] fresh_new
    rw [ZincConnection.sendDisconnect, hstate] at hdisconnect
    change c.post host 2 (writeNBTElement (banText title extra)) = .ok c' at hdisconnect
    rw [writeNBTElement_banText title hmixed, ZincConnection.post, hrun, ok_bind] at hdisconnect
    obtain ⟨encrypt, wire, rfl, -, -⟩ := send_eq_ok hdisconnect
    refine ⟨wire, ?_⟩
    change c.output ++ [⟨c.state, 2, buffer.getBytes, wire⟩] = _
    rw [hstate, hfresh.getBytes]
    rfl
  unfold ZincConnection.sendBanMessage at h
  obtain ⟨timePassed, -, h⟩ := bind_eq_ok.mp h
  split at h
  · cases (Prod.mk.inj (Except.ok.inj h)).1
  · obtain ⟨c₁, hdisconnect, h⟩ := bind_eq_ok.mp h
    obtain ⟨-, rfl⟩ := Prod.mk.inj (Except.ok.inj h)
    have hmixed := mixed_banDetails host.config ban
    split at hdisconnect
    · refine ⟨_, by simp [banTitles], hsend _ (by simp [banTitles]) _ ?_ hdisconnect⟩
      obtain ⟨a, ha, b, hb, hne⟩ := hmixed
      exact ⟨a, List.mem_cons_of_mem _ (List.mem_cons_of_mem _ ha), b,
        List.mem_cons_of_mem _ (List.mem_cons_of_mem _ hb), hne⟩
    · exact ⟨_, by simp [banTitles], hsend _ (by simp [banTitles]) _ hmixed hdisconnect⟩

/-! ### What a message tells -/

/-- The component with the id of a ban. -/
def banIdText (ban : BanData) : TextComponent :=
  ⟨utf8 "Ban ID: ", some (utf8 "gray"), none,
    [⟨ban.banId ++ utf8 "\n", some (utf8 "white"), none, []⟩,
      .colored "Do not share your Ban ID" "gray"]⟩

/-- The bytes are read as a compound with the reason and the id of a ban in its list. -/
def Tells (ban : BanData) (data : Bytes) : Prop :=
  ∃ element bound, (∀ n ≥ bound, Consumes (Stored true) (readNBTElement n) data element) ∧
    element.type = .compound ∧ ∃ extra ∈ element.childElements,
      extra.type = .list ∧ extra.tag = utf8 "extra" ∧
      (∃ reason ∈ extra.childElements, tree reason = tree ban.reason) ∧
      ∃ id ∈ extra.childElements, tree id = tree (banIdText ban).encode

theorem not_tells_banText {title : String} (h : Short (utf8 title)) :
    ¬ Tells ban (nbtBytes (banText title [])) := by
  rintro ⟨element, bound, hread, htype, extra, hextra, hlist, -, ⟨reason, hreason, -⟩, -⟩
  have ht := wellFormed_banText h
  have hdecoded := consumes_readNBTElement ht rfl
    (le_max_right bound (fuel (tree (banText title []))))
  obtain rfl := unique_of_consumes (hread _ (le_max_left _ _)) hdecoded
  have htree := tree_decoded ht networkSettings
  rw [tree_compound htype, banText, tree_of_compound] at htree
  have hchildren := (Tree.compound.inj htree).2
  have hmem := hchildren ▸ List.mem_map_of_mem (f := tree) hextra
  rw [tree_list hlist] at hmem
  have hempty : extra.tag = utf8 "extra" ∧ extra.childElements = [] := by simpa using hmem
  rw [hempty.2] at hreason
  cases hreason

/-- No ban message in state Config tells the reason and the id. -/
theorem not_tells (host : Host) (moment : Moment) (ban : BanData) (c : ZincConnection)
    (hstate : c.state = .config) :
    ¬ ∃ c' sent, c.sendBanMessage host moment ban = .ok (true, c') ∧
      c'.output = c.output ++ [sent] ∧ Tells ban sent.data := by
  rintro ⟨c', sent, hrun, houtput, htells⟩
  obtain ⟨title, htitle, wire, houtput'⟩ := sendBanMessage_output hstate hrun
  obtain rfl := List.singleton_inj.mp (List.append_cancel_left (houtput.symm.trans houtput'))
  exact not_tells_banText (short_banTitles title htitle) htells

/-! ### A ban of a griefer -/

/-- Without encryption a permanent ban is always told. -/
theorem exists_sendBanMessage (host : Host) (moment : Moment) (hstate : c.state = .config)
    (hencrypted : c.isEncrypted = false) (hban : ban.isTemporaryban = false) :
    ∃ c', c.sendBanMessage host moment ban = .ok (true, c') := by
  have hmixed := mixed_banDetails host.config ban
  have hshort := short_banTitles "You are permanently banned from this server\n\n"
    (by simp [banTitles])
  have hwrite := produces_writeNBTElement (writable_fresh true) (wellFormed_banText hshort) rfl
  obtain ⟨buffer, hrun, -⟩ := hwrite .new [] fresh_new
  have htime : ban.timePassed moment.now = .ok (-1) := by
    rw [BanData.timePassed, hban]
    rfl
  rw [ZincConnection.sendBanMessage, htime, ok_bind, if_neg (by omega)]
  simp only [if_neg (show ¬ (0 : ℤ) ≤ -1 by omega)]
  rw [ZincConnection.sendDisconnect, hstate]
  change ∃ c', (c.post host 2 (writeNBTElement (banText _ (banDetails host.config ban))) >>= _) =
    .ok (true, c')
  rw [writeNBTElement_banText _ hmixed, ZincConnection.post, hrun, ok_bind]
  change ∃ c', (c.send host.libs host.config.threshold ⟨2, buffer⟩ >>= _) = .ok (true, c')
  rw [send_plain _ _ _ hencrypted]
  exact ⟨_, rfl⟩

def griefer : BanData :=
  ⟨false, [], [65], nilUUID, 0, false, 0, compound [] [string (utf8 "text") (utf8 "griefing")],
    utf8 "7", [66]⟩

theorem not_tells_waiting : ¬ ∃ c' sent, ({ waiting [] with state := .config } : ZincConnection).sendBanMessage
      sampleHost (sampleMoment []) griefer = .ok (true, c') ∧
    c'.output = (waiting []).output ++ [sent] ∧ Tells griefer sent.data :=
  not_tells sampleHost (sampleMoment []) griefer { waiting [] with state := .config } rfl

theorem not_tells_griefer : ∃ (c c' : ZincConnection) (sent : Sent), c.state = .config ∧ griefer.active 0 = true ∧
    (tree griefer.reason).WellFormed ∧ griefer.reason.tag = [] ∧
    c.sendBanMessage sampleHost (sampleMoment []) griefer = .ok (true, c') ∧
    c'.output = c.output ++ [sent] ∧ ¬ Tells griefer sent.data := by
  let c : ZincConnection := { waiting [] with state := .config }
  obtain ⟨c', hrun⟩ : ∃ c', c.sendBanMessage sampleHost (sampleMoment []) griefer = .ok (true, c') :=
    exists_sendBanMessage _ _ rfl rfl rfl
  obtain ⟨title, htitle, wire, houtput⟩ := sendBanMessage_output rfl hrun
  have hreason : (tree griefer.reason).WellFormed :=
    wellFormed_compound (by decide) (by simpa using child_string (by decide) (by decide))
  exact ⟨c, c', _, rfl, rfl, hreason, rfl, hrun, houtput,
    not_tells_banText (short_banTitles title htitle)⟩

end Zinc.Network
