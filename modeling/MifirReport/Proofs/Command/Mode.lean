import MifirReport.Proofs.Command.Outcome
import MifirReport.Proofs.Text.LowerCase

/-!
# A mode that is named in two ways

The mode of a conversion is named itself, by one of a few words in any case (`ClientMode.words`), or
a client is named in the client table. The words are compared in lower case, the client up to the
case of ASCII letters. `ofClient_of_ofName?` says that a name of a mode has that mode as the name of
a client, and that a client with a mode of its own has a name of that mode. None of the words has a
`k`, so that no letter outside ASCII makes a difference.
-/

namespace MifirReport

open Files Text

namespace Client.ClientMode

/-- The words that name a mode, in lower case. -/
def words : ClientMode → List String
  | nnip => ["nnip"]
  | standard => ["", "standard", "default"]

variable {mode mode' : ClientMode} {word word' name : String} {cs : List Char}

theorem isAscii_of_mem_words (h : word ∈ mode.words) : ∀ c ∈ word.toList, IsAscii c ∧ c ≠ 'k' := by
  cases mode <;> revert word <;> simp [words, IsAscii]

/-- A text is one word at most. -/
theorem eq_of_isWord (h : isWord word cs = true) (h' : isWord word' cs = true) : word = word' := by
  rw [isWord, beq_iff_eq] at h h'
  exact String.toList_inj.1 (h.symm.trans h')

/-- A name is that of a mode just if it is one of the words for it, apart from blanks. -/
theorem ofName?_eq_some_iff :
    ofName? name = some mode ↔ ∃ word ∈ mode.words, isWord word (trim name.toList) = true := by
  have hnnip : (∃ word ∈ words nnip, isWord word (trim name.toList) = true) ↔
      isWord "nnip" (trim name.toList) = true := by
    simp [words]
  have hstandard : (∃ word ∈ words standard, isWord word (trim name.toList) = true) ↔
      isWord "" (trim name.toList) = true ∨ isWord "standard" (trim name.toList) = true ∨
        isWord "default" (trim name.toList) = true := by
    simp [words]
  rw [ofName?]
  by_cases hword : isWord "nnip" (trim name.toList) = true
  · -- The word for one mode is none for the other.
    have hother : ¬∃ word ∈ words standard, isWord word (trim name.toList) = true := by
      rintro ⟨word, hmem, hword'⟩
      rw [← eq_of_isWord hword hword'] at hmem
      revert hmem
      decide
    rw [if_pos hword]
    cases mode with
    | nnip => simp [hnnip, hword]
    | standard => simp [hother]
  · rw [if_neg hword]
    cases mode with
    | nnip =>
      rw [hnnip]
      split_ifs <;> simp [hword]
    | standard =>
      rw [hstandard]
      split_ifs with h <;> simp [h]

/-- A name is that of the mode of one client just if the client is named. -/
theorem ofName?_eq_nnip_iff : ofName? name = some nnip ↔ ofClient name = nnip := by
  have hmem : "nnip" ∈ words nnip := List.mem_cons_self
  have hword : isWord "nnip" (trim name.toList) = true ↔
      isWordAscii "NNIP" (trim name.toList) = true :=
    isWord_iff_isWordAscii (isAscii_of_mem_words hmem) rfl _
  rw [ofName?_eq_some_iff, ofClient]
  simp [words, hword]

/-- Whatever the lower case of a capital sigma is, a name is that of a mode just if its lower case
is one of the words for the mode. -/
theorem ofName?_eq_some_iff_unicodeLowerText (isFinal : List Char → List Char → Bool) :
    ofName? name = some mode ↔
      String.ofList (unicodeLowerText isFinal [] (trim name.toList)) ∈ mode.words := by
  rw [ofName?_eq_some_iff]
  constructor
  · rintro ⟨word, hmem, hword⟩
    rw [isWord_iff (fun c hc => (isAscii_of_mem_words hmem c hc).1) isFinal] at hword
    rwa [hword, String.ofList_toList]
  · intro hmem
    refine ⟨_, hmem, ?_⟩
    rw [isWord_iff (fun c hc => (isAscii_of_mem_words hmem c hc).1) isFinal, String.toList_ofList]

end Client.ClientMode

namespace Command

open Client Disk

variable {disk : Disk} {arguments : Arguments} {client : String}

/-- With a client table the mode is settled from the client in it. -/
theorem perform_chooseMode_of_loads (h : Loads disk arguments.clientTable (some client)) :
    disk.perform (chooseMode Disk.storage arguments) =
      (settle arguments.clientMode client, disk) := by
  rcases perform_chooseMode_eq disk arguments with ⟨client', hloads, hchoose⟩ | ⟨hnone, -⟩
  · rw [hchoose, ← h.unique hloads, Option.getD_some]
  · exact absurd h (hnone _)

/-- A name that is accepted as that of a mode has the same mode as the name of a client, and the
client with a mode of its own is accepted as the name of that mode. Names of modes are compared in
lower case, whatever that of a capital sigma is. So to name the client that is in the client table
chooses the mode that the table chooses, or none, and none is refused that way where the table
chooses a mode of its own. -/
theorem ofClient_of_ofName? (name : String) :
    (∀ mode, ClientMode.ofName? name = some mode → ClientMode.ofClient name = mode) ∧
    (ClientMode.ofClient name = .nnip → ClientMode.ofName? name = some .nnip) ∧
    (∀ isFinal mode, ClientMode.ofName? name = some mode ↔
      String.ofList (unicodeLowerText isFinal [] (trim name.toList)) ∈ mode.words) ∧
    ∀ (disk : Disk) (arguments : Arguments), Loads disk arguments.clientTable (some name) →
      ∃ named tabled,
        disk.perform (chooseMode Disk.storage { arguments with clientMode := some name }) =
          (named, disk) ∧
        disk.perform (chooseMode Disk.storage { arguments with clientMode := none }) =
          (.ok tabled, disk) ∧
        (∀ mode, named = .ok mode → tabled = mode) ∧ (tabled = .nnip → named = .ok .nnip) := by
  have hsame : ∀ mode, ClientMode.ofName? name = some mode → ClientMode.ofClient name = mode := by
    intro mode hname
    cases mode with
    | nnip => exact ClientMode.ofName?_eq_nnip_iff.1 hname
    | standard =>
      cases hclient : ClientMode.ofClient name with
      | standard => rfl
      | nnip =>
        rw [ClientMode.ofName?_eq_nnip_iff.2 hclient] at hname
        cases hname
  refine ⟨hsame, ClientMode.ofName?_eq_nnip_iff.2,
    fun isFinal _ => ClientMode.ofName?_eq_some_iff_unicodeLowerText isFinal,
    fun disk arguments hloads => ⟨settle (some name) name, ClientMode.ofClient name,
      perform_chooseMode_of_loads hloads, perform_chooseMode_of_loads hloads, ?_, ?_⟩⟩
  · intro mode hmode
    rw [settle] at hmode
    cases hname : ClientMode.ofName? name with
    | none =>
      rw [hname] at hmode
      cases hmode
    | some mode' =>
      rw [hname] at hmode
      cases hmode
      exact hsame mode hname
  · intro htabled
    rw [settle, ClientMode.ofName?_eq_nnip_iff.2 htabled]

/-- A name in mixed case with blanks around it that are not ASCII, and the client of a table. -/
theorem ofClient_of_ofName?_trades :
    (ClientMode.ofName? "\u2003nNiP\u00A0" = some .nnip ∧
      ClientMode.ofClient "\u2003nNiP\u00A0" = .nnip) ∧
    Loads tradeDisk tradeArguments.clientTable (some "NNIP") ∧
    tradeDisk.perform (chooseMode Disk.storage { tradeArguments with clientMode := some "NNIP" }) =
      (.ok .nnip, tradeDisk) := by
  have hname : ClientMode.ofName? "\u2003nNiP\u00A0" = some .nnip := by decide
  have hloads : Loads tradeDisk tradeArguments.clientTable (some "NNIP") :=
    .table (by decide) rfl (by decide +kernel)
  have htable : tradeDisk.perform
      (chooseMode Disk.storage { tradeArguments with clientMode := none }) =
        (.ok .nnip, tradeDisk) :=
    (perform_chooseMode_of_loads hloads).trans (by decide)
  obtain ⟨named, tabled, hnamed, htabled, -, hsame⟩ :=
    (ofClient_of_ofName? "NNIP").2.2.2 tradeDisk tradeArguments hloads
  obtain ⟨hmode, -⟩ := Prod.mk.inj (htabled.symm.trans htable)
  rw [hsame (Except.ok.inj hmode)] at hnamed
  exact ⟨⟨hname, (ofClient_of_ofName? _).1 _ hname⟩, hloads, hnamed⟩

end Command

end MifirReport
