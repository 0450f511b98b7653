/-
Which forwards the user network of a started machine has, against the ones
that were asked for with `--port` and `--if`.
-/
import Bodhi.StartCommand

namespace Bodhi

/-- A decimal port as it is typed. -/
structure Decimal where
  text : Text
  nonempty : text ≠ []
  digits : ∀ c ∈ text, c.isDigit = true

def Decimal.ofText (text : Text)
    (h : text ≠ [] ∧ text.all Char.isDigit = true) : Decimal where
  text := text
  nonempty := h.1
  digits := List.all_eq_true.1 h.2

namespace Decimal

theorem not_mem (port : Decimal) {c : Char} (hc : c.isDigit = false) :
    c ∉ port.text := by
  intro h
  rw [port.digits c h] at hc
  cases hc

theorem portPart (port : Decimal) : PortPart port.text := by
  refine ⟨⟨port.nonempty, fun c hc => ?_⟩, port.not_mem (by decide)⟩
  have hother : ∀ d : Char, d.isDigit = false → c ≠ d :=
    fun d hd heq => port.not_mem hd (heq ▸ hc)
  have hblank := isBlank_of_isDigit (port.digits c hc)
  simp only [isPlain, hblank, Bool.and_eq_true, bne_iff_ne, ne_eq,
    Bool.not_false, and_true, List.contains_eq_mem, Bool.not_eq_true',
    decide_eq_false_iff_not, List.mem_cons, List.not_mem_nil, or_false, not_or]
  exact ⟨hother ':' (by decide), hother '*' (by decide),
    hother '?' (by decide), hother '[' (by decide), hother '\\' (by decide)⟩

end Decimal

/-- The text of a TCP rule, as it stands behind `hostfwd=`. -/
def ruleText (host guest : Text) : Text :=
  tcpProtocol ++ ':' :: ':' :: (host ++ '-' :: ':' :: guest)

theorem readHostForward_ruleText {host : Text} (hdash : '-' ∉ host)
    (guest : Text) :
    readHostForward (ruleText host guest) = some (tcpForward host guest) := by
  have hprotocol := cutAt_append (show ':' ∉ tcpProtocol by decide)
    (':' :: (host ++ '-' :: ':' :: guest))
  have haddress := cutAt_append (show ':' ∉ ([] : Text) by decide)
    (host ++ '-' :: ':' :: guest)
  have hport := cutAt_append hdash (':' :: guest)
  have hguest := cutAt_append (show ':' ∉ ([] : Text) by decide) guest
  rw [List.nil_append] at haddress hguest
  simp only [readHostForward, ruleText, hprotocol, haddress, hport, hguest,
    Option.bind_eq_bind, Option.bind_some]
  rfl

theorem hostfwdFront_eq : hostfwdFront =
    ',' :: (hostfwdKey ++ '=' :: (tcpProtocol ++ [':', ':'])) := by decide

theorem guestFront_eq : guestFront = ['-', ':'] := by decide

theorem hostFwdRule_eq (host guest : Text) :
    hostFwdRule host guest =
      ',' :: (hostfwdKey ++ '=' :: ruleText host guest) := by
  unfold hostFwdRule ruleText
  rw [hostfwdFront_eq, guestFront_eq]
  simp only [List.cons_append, List.append_assoc, List.nil_append]

/-- A pair of parts that can stand in a rule. -/
def RulePair (pair : Text × Text) : Prop :=
  ',' ∉ pair.1 ∧ '-' ∉ pair.1 ∧ ',' ∉ pair.2

def ruleItem (pair : Text × Text) : Text × Text :=
  (hostfwdKey, ruleText pair.1 pair.2)

theorem ruleText_no_comma {pair : Text × Text} (h : RulePair pair) :
    ',' ∉ ruleText pair.1 pair.2 := by
  have htcp : ',' ∉ tcpProtocol := by decide
  simp [ruleText, htcp, h.1, h.2.2]

/-- A rule of HOST_FWD is a comma and a rendered item. -/
theorem hostFwdRule_eq_renderItem {pair : Text × Text} (h : RulePair pair) :
    hostFwdRule pair.1 pair.2 = ',' :: renderItem (ruleItem pair) := by
  rw [hostFwdRule_eq, renderItem, ruleItem,
    escapeCommas_of_not_mem (ruleText_no_comma h)]

theorem flatMap_hostFwdRule {pairs : List (Text × Text)}
    (h : ∀ pair ∈ pairs, RulePair pair) :
    (pairs.flatMap fun pair => hostFwdRule pair.1 pair.2) =
      (pairs.map ruleItem).flatMap fun item => ',' :: renderItem item := by
  rw [List.flatMap_map]
  exact List.flatMap_congr fun pair hmem =>
    hostFwdRule_eq_renderItem (h pair hmem)

/-- The items of a user network with the given id and rules. -/
def netdevItems (id : Text) (pairs : List (Text × Text)) :
    List (Text × Text) :=
  (typeKey, userType) :: (idKey, id) :: pairs.map ruleItem

theorem mem_netdevItems_key {id : Text} {pairs : List (Text × Text)}
    {item : Text × Text} (hmem : item ∈ netdevItems id pairs) :
    item.1 ∈ [typeKey, idKey, hostfwdKey] := by
  simp only [netdevItems, List.mem_cons, List.mem_map] at hmem
  rcases hmem with rfl | rfl | ⟨pair, _, rfl⟩ <;> simp [ruleItem]

theorem netdevItems_keys (id : Text) (pairs : List (Text × Text)) :
    ∀ item ∈ netdevItems id pairs, IsOptionKey item.1 := by
  intro item hmem
  have hkeys : ∀ key ∈ [typeKey, idKey, hostfwdKey], IsOptionKey key := by
    decide
  exact hkeys _ (mem_netdevItems_key hmem)

theorem mapM_readHostForward {pairs : List (Text × Text)}
    (h : ∀ pair ∈ pairs, RulePair pair) :
    (pairs.map fun pair => ruleText pair.1 pair.2).mapM readHostForward =
      some (pairs.map fun pair => tcpForward pair.1 pair.2) := by
  induction pairs with
  | nil => rfl
  | cons pair rest ih =>
      have hhead := readHostForward_ruleText (h pair List.mem_cons_self).2.1
        pair.2
      have htail := ih fun other hmem => h other (List.mem_cons_of_mem _ hmem)
      simp [List.mapM_cons, hhead, htail]

theorem optionValues_optionItems (key : Text) (items : List (Text × Text)) :
    optionValues key (optionItems items) =
      (items.filter fun item => item.1 = key).map Prod.snd := by
  induction items with
  | nil => rfl
  | cons item rest ih =>
      by_cases hkey : item.1 = key <;>
        simp_all [optionValues, optionItems]

theorem ruleItem_filter_ne {key : Text} (h : key ≠ hostfwdKey)
    (pairs : List (Text × Text)) :
    ((pairs.map ruleItem).filter fun item => item.1 = key) = [] := by
  rw [List.filter_eq_nil_iff]
  intro item hmem
  obtain ⟨pair, _, rfl⟩ := List.mem_map.1 hmem
  simp [ruleItem, h.symm]

theorem ruleItem_filter_self (pairs : List (Text × Text)) :
    ((pairs.map ruleItem).filter fun item => item.1 = hostfwdKey) =
      pairs.map ruleItem := by
  rw [List.filter_eq_self]
  intro item hmem
  obtain ⟨pair, _, rfl⟩ := List.mem_map.1 hmem
  simp [ruleItem]

/-- The rendered items of a user network are read back, also with a comma at
the end. -/
theorem readUserNetdev_render (id : Text) {pairs : List (Text × Text)}
    (h : ∀ pair ∈ pairs, RulePair pair) {last : Text}
    (hlast : last = [] ∨ last = [',']) :
    readUserNetdev (renderOptions (netdevItems id pairs) ++ last) =
      some ⟨id, pairs.map fun pair => tcpForward pair.1 pair.2⟩ := by
  have hread := readOptions_renderOptions_append (netdevItems_keys id pairs)
    (by simp [netdevItems]) hlast
  have htypeId : typeKey ≠ idKey := by decide
  have htypeRule : typeKey ≠ hostfwdKey := by decide
  have hidRule : idKey ≠ hostfwdKey := by decide
  have htype : optionValues typeKey (optionItems (netdevItems id pairs)) =
      [userType] := by
    simp [optionValues_optionItems, netdevItems, htypeId.symm,
      ruleItem_filter_ne htypeRule]
  have hid : optionValues idKey (optionItems (netdevItems id pairs)) =
      [id] := by
    simp [optionValues_optionItems, netdevItems, htypeId,
      ruleItem_filter_ne hidRule]
  have hrules : optionValues hostfwdKey (optionItems (netdevItems id pairs)) =
      pairs.map fun pair => ruleText pair.1 pair.2 := by
    simp [optionValues_optionItems, netdevItems, htypeRule, hidRule,
      ruleItem_filter_self, ruleItem]
  have hknown : ∀ item ∈ optionItems (netdevItems id pairs),
      item.key ∈ [typeKey, idKey, hostfwdKey] ∧
        item.value.isSome = true := by
    intro item hmem
    obtain ⟨source, hsource, rfl⟩ := List.mem_map.1 hmem
    exact ⟨mem_netdevItems_key hsource, rfl⟩
  simp only [readUserNetdev, hread]
  rw [if_pos ⟨htype, hknown⟩, hid, hrules, mapM_readHostForward h]
  rfl

/-- The forwards that `--port` and, in ssh mode, the SSH port ask for. -/
def requestedForwards (mode : IfMode) (port : Decimal)
    (pairs : List (Decimal × Decimal)) : List HostForward :=
  (match mode with
    | .ssh => [tcpForward port.text sshGuestPort]
    | .graphical => []) ++
  pairs.map fun pair => tcpForward pair.1.text pair.2.text

/-- The id that both the network and the device behind it must carry. -/
def netId (vid : Nat) : Text :=
  "unet".toList ++ numeral vid

/-- The user network of a started machine is the one asked for. -/
def NetdevMatches (command : QemuCommand) (id : Text)
    (forwards : List HostForward) : Prop :=
  readUserNetdev command.userNetdev = some ⟨id, forwards⟩ ∧
    deviceNetdev command.userDevice = some id

/-- The settings with which `start_vm` is reached. -/
def startSettings (s : Settings) (mode : IfMode) (vid : Nat) (port : Decimal)
    (hostFwd : Text) : Settings :=
  { s with
    ifMode := mode.token
    vid := numeral vid
    guestSshPort := port.text
    hostFwd := hostFwd }

theorem startVm_startSettings (home selectedVm : Text) (s : Settings)
    (mode : IfMode) (vid : Nat) (port : Decimal) (hostFwd : Text) :
    startVm home selectedVm (startSettings s mode vid port hostFwd) =
      some (match mode with
        | .graphical => graphicalCommand home selectedVm
            (startSettings s mode vid port hostFwd)
        | .ssh => sshCommand home selectedVm
            (startSettings s mode vid port hostFwd)) := by
  rw [startVm_eq_some_iff]
  cases mode with
  | graphical => exact Or.inl ⟨rfl, rfl⟩
  | ssh => exact Or.inr ⟨rfl, rfl⟩

theorem netId_no_comma (vid : Nat) : ',' ∉ netId vid := by
  have hunet : ',' ∉ "unet".toList := by decide
  rw [netId, List.mem_append, not_or]
  exact ⟨hunet, not_mem_numeral (by decide)⟩

/-- What the templates write in front of the id. -/
def netdevFront : Text :=
  typeKey ++ '=' :: userType ++ ',' :: idKey ++ ['=']

theorem renderOptions_netdevItems (id : Text) {pairs : List (Text × Text)}
    (h : ∀ pair ∈ pairs, RulePair pair) :
    renderOptions (netdevItems id pairs) =
      netdevFront ++ escapeCommas id ++
        pairs.flatMap fun pair => hostFwdRule pair.1 pair.2 := by
  have huser : ',' ∉ userType := by decide
  have happend := renderOptions_append (typeKey, userType) [(idKey, id)]
    (pairs.map ruleItem)
  rw [flatMap_hostFwdRule h]
  simp only [List.cons_append, List.nil_append] at happend
  rw [netdevItems, happend, renderOptions_cons_cons]
  simp [renderOptions, renderItem, escapeCommas_of_not_mem huser, netdevFront]

theorem template_front (vid : Nat) :
    userNetdevFront ++ numeral vid = netdevFront ++ netId vid := by
  have hfront : userNetdevFront = netdevFront ++ "unet".toList := by decide
  rw [hfront, netId, List.append_assoc]

/-- The texts of typed pairs. -/
def pairTexts (pairs : List (Decimal × Decimal)) : List (Text × Text) :=
  pairs.map fun pair => (pair.1.text, pair.2.text)

theorem pairTexts_rulePair (pairs : List (Decimal × Decimal)) :
    ∀ pair ∈ pairTexts pairs, RulePair pair := by
  intro pair hmem
  obtain ⟨source, _, rfl⟩ := List.mem_map.1 hmem
  exact ⟨source.1.not_mem (by decide), source.1.not_mem (by decide),
    source.2.not_mem (by decide)⟩

theorem parsePortFlag_pairTexts (G : Globbing)
    (pairs : List (Decimal × Decimal)) :
    parsePortFlag G (portArgument (pairTexts pairs)) =
      .ok ((pairTexts pairs).flatMap fun pair =>
        hostFwdRule pair.1 pair.2) := by
  apply parsePortFlag_portArgument
  intro pair hmem
  obtain ⟨source, _, rfl⟩ := List.mem_map.1 hmem
  exact ⟨source.1.portPart, source.2.portPart⟩

section Started

variable (home selectedVm : Text) (s : Settings) (vid : Nat) (port : Decimal)
variable (pairs : List (Decimal × Decimal))

/-- HOST_FWD after the list of pairs is parsed. -/
def pairsHostFwd : Text :=
  (pairTexts pairs).flatMap fun pair => hostFwdRule pair.1 pair.2

theorem sshRules_rulePair :
    ∀ pair ∈ (port.text, sshGuestPort) :: pairTexts pairs, RulePair pair := by
  intro pair hmem
  rcases List.mem_cons.1 hmem with rfl | hmem
  · exact ⟨port.not_mem (by decide), port.not_mem (by decide),
      show ',' ∉ sshGuestPort by decide⟩
  · exact pairTexts_rulePair pairs pair hmem

/-- In ssh mode the forwards follow the rule of the SSH port. -/
theorem sshCommand_userNetdev :
    (sshCommand home selectedVm
        (startSettings s .ssh vid port (pairsHostFwd pairs))).userNetdev =
      renderOptions (netdevItems (netId vid)
        ((port.text, sshGuestPort) :: pairTexts pairs)) := by
  rw [renderOptions_netdevItems _ (sshRules_rulePair port pairs),
    escapeCommas_of_not_mem (netId_no_comma vid), List.flatMap_cons,
    ← template_front]
  simp only [sshCommand, startCommand, startSettings, pairsHostFwd,
    List.append_assoc]

theorem graphicalCommand_userNetdev :
    (graphicalCommand home selectedVm
        (startSettings s .graphical vid port (pairsHostFwd pairs))).userNetdev =
      netdevFront ++ netId vid ++ ',' :: pairsHostFwd pairs := by
  rw [← template_front]
  rfl

/-- In graphical mode the first forward of a list is read as part of the id. -/
theorem graphicalCommand_userNetdev_cons (pair : Decimal × Decimal) :
    (graphicalCommand home selectedVm (startSettings s .graphical vid port
        (pairsHostFwd (pair :: pairs)))).userNetdev =
      renderOptions (netdevItems
        (netId vid ++ ',' ::
          (hostfwdKey ++ '=' :: ruleText pair.1.text pair.2.text))
        (pairTexts pairs)) := by
  have hpair : RulePair (pair.1.text, pair.2.text) :=
    pairTexts_rulePair [pair] _ (by simp [pairTexts])
  have hrule : ',' ∉ hostfwdKey ++ '=' :: ruleText pair.1.text pair.2.text := by
    have hkey : ',' ∉ hostfwdKey := by decide
    have htext := ruleText_no_comma hpair
    simp [hkey, htext]
  have hescape : escapeCommas (netId vid ++ ',' ::
      (hostfwdKey ++ '=' :: ruleText pair.1.text pair.2.text)) =
        netId vid ++ ',' :: hostFwdRule pair.1.text pair.2.text := by
    rw [escapeCommas_append, escapeCommas_of_not_mem (netId_no_comma vid),
      escapeCommas_cons_comma, escapeCommas_of_not_mem hrule, hostFwdRule_eq]
  rw [graphicalCommand_userNetdev, renderOptions_netdevItems _
    (pairTexts_rulePair pairs), hescape]
  simp [pairsHostFwd, pairTexts]

theorem deviceNetdev_template (vid : Nat) :
    deviceNetdev ("virtio-net-pci,netdev=unet".toList ++ numeral vid) =
      some (netId vid) := by
  have hfront : "virtio-net-pci,netdev=unet".toList =
      "virtio-net-pci".toList ++ ',' :: (netdevKey ++ '=' :: "unet".toList) := by
    decide
  have hread : readOptions ("virtio-net-pci".toList ++
      ',' :: (netdevKey ++ '=' :: netId vid)) =
        [⟨"virtio-net-pci".toList, none⟩, ⟨netdevKey, some (netId vid)⟩] := by
    have hlast := scanOptions_last_value netdevKey (netId vid) []
    rw [escapeCommas_of_not_mem (netId_no_comma vid)] at hlast
    rw [readOptions, scanOptions_flag (by decide) (by decide),
      scanOptions_key (by decide) (by decide), List.nil_append,
      List.nil_append, hlast]
    rfl
  rw [hfront, List.append_assoc, List.cons_append, List.append_assoc,
    List.cons_append, ← netId, deviceNetdev, hread]
  simp [optionValue, optionValues]

theorem map_tcpForward_pairTexts :
    ((pairTexts pairs).map fun pair => tcpForward pair.1 pair.2) =
      pairs.map fun pair => tcpForward pair.1.text pair.2.text := by
  simp [pairTexts]

/-- The ssh template is read back as what was asked for. -/
theorem sshCommand_netdevMatches :
    NetdevMatches (sshCommand home selectedVm
        (startSettings s .ssh vid port (pairsHostFwd pairs)))
      (netId vid) (requestedForwards .ssh port pairs) := by
  refine ⟨?_, deviceNetdev_template vid⟩
  have hread := readUserNetdev_render (netId vid)
    (sshRules_rulePair port pairs) (Or.inl rfl)
  rw [List.append_nil] at hread
  rw [sshCommand_userNetdev, hread, List.map_cons, map_tcpForward_pairTexts]
  rfl

/-- Without forwards the graphical template ends in a comma, which is
ignored. -/
theorem graphicalCommand_netdevMatches_nil :
    NetdevMatches (graphicalCommand home selectedVm
        (startSettings s .graphical vid port (pairsHostFwd [])))
      (netId vid) (requestedForwards .graphical port []) := by
  refine ⟨?_, deviceNetdev_template vid⟩
  have hrules : ∀ pair ∈ ([] : List (Text × Text)), RulePair pair := by simp
  have hread := readUserNetdev_render (netId vid) hrules (Or.inr rfl)
  rw [renderOptions_netdevItems _ hrules,
    escapeCommas_of_not_mem (netId_no_comma vid)] at hread
  rw [graphicalCommand_userNetdev]
  simpa [pairsHostFwd, pairTexts, requestedForwards] using hread

theorem graphicalCommand_not_netdevMatches_cons (pair : Decimal × Decimal) :
    ¬ NetdevMatches (graphicalCommand home selectedVm
        (startSettings s .graphical vid port (pairsHostFwd (pair :: pairs))))
      (netId vid) (requestedForwards .graphical port (pair :: pairs)) := by
  rintro ⟨hread, -⟩
  have hrender := readUserNetdev_render
    (netId vid ++ ',' ::
      (hostfwdKey ++ '=' :: ruleText pair.1.text pair.2.text))
    (pairTexts_rulePair pairs) (Or.inl rfl)
  rw [List.append_nil] at hrender
  rw [graphicalCommand_userNetdev_cons, hrender] at hread
  have hid := congrArg UserNetdev.id (Option.some.inj hread)
  exact absurd (congrArg List.length hid) (by simp)

/-- The user network of a machine that `start_vm` starts is the one asked for
exactly in ssh mode and where no forward is asked for. -/
theorem startVm_netdevMatches_iff (G : Globbing) (mode : IfMode) :
    ∃ hostFwd command,
      parsePortFlag G (portArgument (pairTexts pairs)) = .ok hostFwd ∧
      startVm home selectedVm (startSettings s mode vid port hostFwd) =
        some command ∧
      (NetdevMatches command (netId vid)
          (requestedForwards mode port pairs) ↔
        mode = .ssh ∨ pairs = []) := by
  refine ⟨_, _, parsePortFlag_pairTexts G pairs,
    startVm_startSettings home selectedVm s mode vid port _, ?_⟩
  cases mode with
  | ssh =>
      simp only [true_or, iff_true]
      exact sshCommand_netdevMatches home selectedVm s vid port pairs
  | graphical =>
      cases pairs with
      | nil =>
          simp only [or_true, iff_true]
          exact graphicalCommand_netdevMatches_nil home selectedVm s vid port
      | cons pair rest =>
          simp only [reduceCtorEq, or_self, iff_false]
          exact graphicalCommand_not_netdevMatches_cons home selectedVm s vid
            port rest pair

end Started

/-- Port 9000 forwarded to 8080 on a graphical machine. -/
def forwardedPair : Decimal × Decimal :=
  (.ofText "9000".toList (by decide), .ofText "8080".toList (by decide))

/-- `start --if graphical --port 9000:8080` loses the forward to the id of the
network. -/
theorem startVm_not_netdevMatches :
    ∃ command,
      startVm "/root".toList "a.qcow2".toList
          (startSettings bareEnvironment .graphical 1 forwardedPair.1
            (hostFwdRule "9000".toList "8080".toList)) = some command ∧
        ¬ NetdevMatches command (netId 1)
          (requestedForwards .graphical forwardedPair.1 [forwardedPair]) := by
  refine ⟨_, startVm_startSettings _ _ _ _ _ _ _, ?_⟩
  intro hmatches
  exact absurd hmatches.1 (by decide)

end Bodhi
