import EW8.Dbc.Reading

/-!
# What is extracted from the DBC files

The parser goes through the lines of a file one after the other, and hands over its messages. What
follows them leaves the messages as they are (`quiet`), whatever comes of its parse.
-/

namespace EW8.Dbc

open EW8.Core EW8.Core.JsonParser EW8.Rx Peg
open Peg.Expr (seqs choices)

variable {s t : List UInt8} {x x' : CanDBSignal} {e : E} {o : Result UInt8}

/-! ## What leaves the messages as they are -/

/-- The rules that neither hand over a message nor put a signal into one. -/
def quiet : Rule → Bool
  | .signal | .message | .grammar => false
  | _ => true

/-- The messages, and the signals of the next one, are the same. -/
def Same (x x' : CanDBSignal) : Prop := x'.messages = x.messages ∧ x'.cansignals = x.cansignals

theorem Same.of_action {r : Rule} (hr : quiet r) (h : CanDBSignal.action r t x = some x') :
    Same x x' := by
  unfold CanDBSignal.action at h
  split at h
  case h_6 | h_7 => cases hr
  case h_4 =>
    split at h
    all_goals
      obtain rfl := Option.some.inj h
      exact ⟨rfl, rfl⟩
  case h_8 | h_9 | h_10 =>
    split at h
    · obtain rfl := Option.some.inj h
      exact ⟨rfl, rfl⟩
    · cases h
  all_goals
    obtain rfl := Option.some.inj h
    exact ⟨rfl, rfl⟩

theorem Same.of_parses (h : Parses candbgrammar e s x o x') (he : e.uses quiet) : Same x x' := by
  have hquiet : ∀ r ∈ Rule.all, quiet r → r.body.uses quiet := by decide +kernel
  refine h.invariant (I := Same x) (fun r => hquiet r r.mem_all) ?_ he ⟨rfl, rfl⟩
  intro r t y y' hr haction hy
  have hy' := Same.of_action hr haction
  exact ⟨hy'.1.trans hy.1, hy'.2.trans hy.2⟩

theorem Same.of_takes (h : Takes candbgrammar e t s x x') (he : e.uses quiet) : Same x x' := by
  obtain ⟨u, h⟩ := h
  exact .of_parses h he

/-! ## What is before the messages -/

theorem comment_failure (hs : Stops "/" s) : Parses candbgrammar (.rule .comment) s x .failure x :=
  have hlit : ¬chars "//" <+: s := by
    rintro ⟨r, rfl⟩
    exact absurd (hs 47 rfl).2 (by decide)
  .rule_failure ((lit_failure hlit).seqs_failure _)

theorem takes_spacing (hs : Stops " \t/" s) : Takes candbgrammar (.rule .spacing) [] s x x :=
  .rule (.star_nil fun _ =>
    .choice_failure (s_failure (hs.mono rfl)) (comment_failure (hs.mono rfl))) fun _ => rfl

namespace File

variable (n : File)

theorem takes_version : Takes candbgrammar (.rule .version) n.versionBytes s x x := by
  refine .rule (.seqs (.token (.seqs (takes_lit "VERSION") (.seqs (takes_blank ?_)
    n.version.takes_phrase))) takes_endl) fun _ => rfl
  exact n.version.stops rfl

theorem takes_ns_comment :
    ∃ x', Takes candbgrammar (.rule .ns_comment) n.symbolsBytes (timingBytes ++ s) x x' := by
  obtain ⟨x', hsymbols⟩ := takes_symbols (s := timingBytes ++ s) (x := x) n.symbols
  have hns : Takes candbgrammar (.rule .ns) n.symbolsBytes (timingBytes ++ s) x x' := by
    refine .rule (.seqs (.token (.seqs (takes_lit "NS_") (.seqs (takes_blank ?_)
      (.seqs (takes_lit ":") (.seqs (takes_blank ?_) (.seqs takes_endl hsymbols)))))) takes_endl)
      fun _ => rfl
    all_goals
      simp only [List.append_assoc]
      exact stops_chars rfl
  have hendl : Takes candbgrammar (zom Rule.endl) [] (timingBytes ++ s) x' x' := by
    refine .star_nil fun _ => .rule_failure (cls_failure ?_)
    rw [timingBytes]
    simp only [List.append_assoc]
    exact stops_chars rfl
  have hopt : Takes candbgrammar (opt (choices (opt Rule.ns) [.rule .comment])) n.symbolsBytes
      (timingBytes ++ s) x x' := .opt hns.opt.choice
  have hbody : Takes candbgrammar (Rule.body .ns_comment) (n.symbolsBytes ++ []) (timingBytes ++ s)
      x x' := .seqs hopt hendl
  rw [List.append_nil] at hbody
  exact ⟨x', hbody.rule fun _ => rfl⟩

theorem takes_bs : Takes candbgrammar (opt Rule.bs) timingBytes s x x := by
  have hno : Takes candbgrammar (zom Rule.symbol_name) [] (chars "\n" ++ s) x x :=
    no_symbol (stops_chars rfl)
  exact .opt (.rule (.seqs (takes_line_of_symbols hno) takes_endl) fun _ => rfl)

theorem takes_bu_sl (s : List UInt8) (x : CanDBSignal) :
    ∃ x', Takes candbgrammar (.rule .bu_sl) n.nodesBytes s x x' := by
  obtain ⟨x', hnames⟩ := takes_node_names (s := s) (x := x) n.nodes
  refine ⟨x', .rule (.seqs (.token (.seqs (takes_lit "BU_") (.seqs_nil (takes_no_blank ?_)
    (.seqs (takes_lit ":") hnames)))) takes_endl) fun _ => rfl⟩
  simp only [List.append_assoc]
  exact stops_chars rfl

/-- The line of the nodes, if it is not taken for symbols. -/
theorem takes_nodes_of_failure (hs : IsNext s) {x₁ : CanDBSignal}
    (h : Parses candbgrammar (.rule .bu) (n.nodesBytes ++ (n.tables.flatMap TableLine.bytes ++
      (chars "\n\n" ++ s))) x .failure x₁) :
    ∃ t₁ t₂ t₃ t₄ x₂ x₃, t₁ ++ (t₂ ++ (t₃ ++ t₄)) =
        n.nodesBytes ++ (n.tables.flatMap TableLine.bytes ++ chars "\n\n") ∧
      Takes candbgrammar (opt (choices Rule.bu [.rule .bu_sl])) t₁ (t₂ ++ (t₃ ++ (t₄ ++ s))) x x₂ ∧
      Takes candbgrammar (.rule .gap) t₂ (t₃ ++ (t₄ ++ s)) x₂ x₂ ∧
      Takes candbgrammar (opt Rule.val_table) t₃ (t₄ ++ s) x₂ x₃ ∧
      Takes candbgrammar (.rule .gap) t₄ s x₃ x₃ := by
  obtain ⟨x₂, hnodes⟩ := n.takes_bu_sl (n.tables.flatMap TableLine.bytes ++ (chars "\n\n" ++ s)) x₁
  obtain ⟨t₂, t₃, t₄, ht, x₃, hgap, htable, hgap'⟩ := takes_val_table (x := x₂) n.tables hs
  have hrest : n.tables.flatMap TableLine.bytes ++ (chars "\n\n" ++ s) =
      t₂ ++ (t₃ ++ (t₄ ++ s)) := by
    rw [← List.append_assoc, ← ht]
    simp only [List.append_assoc]
  refine ⟨n.nodesBytes, t₂, t₃, t₄, x₂, x₃, by rw [ht], ?_, hgap, htable, hgap'⟩
  rw [← hrest]
  exact .opt (.choice_failure h hnodes)

/-- From the line of the nodes up to the messages. -/
theorem takes_nodes (hs : IsNext s) (x : CanDBSignal) :
    ∃ t₁ t₂ t₃ t₄ x₂ x₃, t₁ ++ (t₂ ++ (t₃ ++ t₄)) =
        n.nodesBytes ++ (n.tables.flatMap TableLine.bytes ++ chars "\n\n") ∧
      Takes candbgrammar (opt (choices Rule.bu [.rule .bu_sl])) t₁ (t₂ ++ (t₃ ++ (t₄ ++ s))) x x₂ ∧
      Takes candbgrammar (.rule .gap) t₂ (t₃ ++ (t₄ ++ s)) x₂ x₂ ∧
      Takes candbgrammar (opt Rule.val_table) t₃ (t₄ ++ s) x₂ x₃ ∧
      Takes candbgrammar (.rule .gap) t₄ s x₃ x₃ := by
  cases hnodes : n.nodes with
  | cons node nodes =>
    refine n.takes_nodes_of_failure hs (?_ : Parses candbgrammar _ _ _ _ x)
    rw [nodesBytes, hnodes, List.flatMap_cons]
    simp only [List.append_assoc]
    exact bu_failure node _
  | nil =>
    cases htables : n.tables with
    | cons table tables =>
      have hbytes : n.nodesBytes ++ (n.tables.flatMap TableLine.bytes ++ (chars "\n\n" ++ s)) =
          chars "BU_" ++ (chars ":" ++ (chars "\n" ++ (chars "VAL_TABLE_" ++ (chars " " ++
            (table.name.bytes ++ (chars " " ++ (table.rows.flatMap rowBytes ++ (chars ";" ++
              (chars "\n" ++ (tables.flatMap TableLine.bytes ++ (chars "\n\n" ++ s))))))))))) := by
        rw [nodesBytes, hnodes, htables, List.flatMap_cons, TableLine.bytes]
        simp only [List.append_assoc, List.flatMap_nil, List.nil_append]
      obtain ⟨x₁, hfailure⟩ := bu_failure_of_table (x := x) (table.name.bytes ++ (chars " " ++
        (table.rows.flatMap rowBytes ++ (chars ";" ++ (chars "\n" ++
          (tables.flatMap TableLine.bytes ++ (chars "\n\n" ++ s)))))))
      rw [← htables]
      exact n.takes_nodes_of_failure hs (hbytes ▸ hfailure)
    | nil =>
      have hno : Takes candbgrammar (zom Rule.symbol_name) [] (chars "\n" ++ (chars "\n" ++ s))
          x x := no_symbol (stops_chars rfl)
      have hbu : Takes candbgrammar (.rule .bu)
          ((chars "BU_" ++ (chars ":" ++ (chars "\n" ++ []))) ++ chars "\n") (chars "\n" ++ s)
          x x :=
        .rule (.seqs (takes_line_of_symbols hno) takes_endl) fun _ => rfl
      have hentries : Takes candbgrammar (zom Rule.val_entry) [] s x x :=
        .star_nil fun _ => .rule_failure (.seqs_failure (.token_failure
          ((lit_failure hs.table).seqs_failure _)) _)
      have hendl : Parses candbgrammar (.rule .endl) s x .failure x :=
        (cls_failure (hs.stops.mono rfl)).rule_failure
      refine ⟨_, chars "\n", [], [], x, x, ?_, .opt (.choice hbu),
        takes_gap (allIn_of_all rfl) (hs.stops.mono rfl),
        .opt_nil (.rule_failure (.seqs_failure_of_takes hentries (hendl.seqs_failure []))),
        takes_no_gap (hs.stops.mono rfl)⟩
      rw [nodesBytes, hnodes]
      rfl

end File

/-! ## What is extracted from the bytes -/

theorem replace_eq_self {c d : UInt8} (r : UInt8) (h : ¬[c, d] <:+: s) : replace c d r s = s := by
  induction s with
  | nil => rfl
  | cons a s ih =>
    cases s with
    | nil => rfl
    | cons b s =>
      have hne : ¬(a = c ∧ b = d) := by
        rintro ⟨rfl, rfl⟩
        exact h (List.prefix_append [a, b] s).isInfix
      rw [replace, if_neg hne, ih fun hs => h (hs.trans (List.suffix_cons a _).isInfix)]

/-- With the ends of the lines as in Windows. -/
def crlf (s : List UInt8) : List UInt8 :=
  s.flatMap fun c => if c = '\n'.toUInt8 then ['\r'.toUInt8, '\n'.toUInt8] else [c]

theorem replace_crlf (h : '\r'.toUInt8 ∉ s) :
    replace '\r'.toUInt8 '\n'.toUInt8 '\n'.toUInt8 (crlf s) = s := by
  induction s with
  | nil => rfl
  | cons a s ih =>
    obtain ⟨ha, hs⟩ := not_or.1 (List.mem_cons.not.1 h)
    have hcons : crlf (a :: s) =
        (if a = '\n'.toUInt8 then ['\r'.toUInt8, '\n'.toUInt8] else [a]) ++ crlf s := rfl
    rw [hcons]
    split_ifs with hlf
    · rw [List.cons_append, List.cons_append, List.nil_append, replace, if_pos ⟨rfl, rfl⟩, ih hs,
        hlf]
    · have hstep (l : List UInt8) : replace '\r'.toUInt8 '\n'.toUInt8 '\n'.toUInt8 (a :: l) =
          a :: replace '\r'.toUInt8 '\n'.toUInt8 '\n'.toUInt8 l := by
        cases l with
        | nil => rfl
        | cons b l => rw [replace, if_neg fun heq => ha heq.1.symm]
      rw [List.singleton_append, hstep, ih hs]

theorem extractedString_eq (hquote : ¬['\\'.toUInt8, quote] <:+: s) (hcr : '\r'.toUInt8 ∉ s)
    (ht : t = s ∨ t = crlf s) : extractedString t = s := by
  have hreplace : replace '\r'.toUInt8 '\n'.toUInt8 '\n'.toUInt8 t = s := by
    rcases ht with rfl | rfl
    · exact replace_eq_self _ fun h => hcr (h.subset List.mem_cons_self)
    · exact replace_crlf hcr
  rw [extractedString, hreplace, replace_eq_self _ hquote]

/-! ## The file -/

theorem exists_parses (e : E) (he : e.under Rule.rank 7)
    (ha : e.advances Terminal.isAscii Rule.takes) (s : List UInt8) (x : CanDBSignal) :
    ∃ o x', Parses candbgrammar e s x o x' := by
  obtain ⟨⟨o, x'⟩, h⟩ := (terminating CanDBSignal.action).exists_run
    (k := e.size + s.length + 7 * (112 + s.length + 1)) he ha le_rfl (Nat.le_succ _) x
  exact ⟨o, x', parses_of_run h⟩

theorem takes_no_sections : Takes candbgrammar Rule.sections [] [] x x := by
  have hgap : Takes candbgrammar (.rule .gap) [] [] x x := takes_no_gap nofun
  have hzom (e : E) : Takes candbgrammar (zom e) [] [] x x := .star_nil fun h => absurd rfl h
  have heof : Takes candbgrammar (.rule .eof) [] [] x x :=
    .rule ⟨[], Parses.not (Parses.terminal_failure rfl)⟩ fun _ => rfl
  exact .seqs_nil hgap (.seqs_nil (hzom _) (.seqs_nil hgap (.seqs_nil (hzom _) (.seqs_nil (hzom _)
    (.seqs_nil hgap (.seqs_nil (hzom _) (.seqs_nil hgap (.seqs_nil (hzom _) (.seqs_nil hgap
    (.seqs_nil (hzom _) (.seqs_nil hgap (.seqs_nil (hzom _) (.seqs_nil hgap (.seqs_nil (hzom _)
    (.seqs_nil hgap (.seqs_nil (hzom _) (.seqs_nil hgap (.seqs_nil (hzom _) (.seqs_nil hgap
    (.seqs_nil (hzom _) (.seqs_nil (hzom _) (.seqs_nil (hzom _) (.seqs_nil hgap
      heof)))))))))))))))))))))))

namespace File

variable (n : File)

/-- What is before the sections is taken, and its messages are handed over. -/
theorem exists_parses_sections (hs : IsTail s) (hx : x.cansignals = []) :
    ∃ x₁, x₁.messages = x.messages ++ n.messages.filterMap MessageLines.message? ∧
      ∀ o x₂, Parses candbgrammar Rule.sections s x₁ o x₂ →
        ∃ u, Parses candbgrammar (Rule.body .grammar) (n.bytes ++ s) x (o.prepend n.bytes u)
          x₂ := by
  have hnext := isNext_messages n.messages hs.toIsNext
  obtain ⟨y, hsymbols⟩ := n.takes_ns_comment (x := x) (s := n.nodesBytes ++
    (n.tables.flatMap TableLine.bytes ++ (chars "\n\n" ++
      (n.messages.flatMap MessageLines.bytes ++ s))))
  obtain ⟨t₁, t₂, t₃, t₄, y₂, y₃, ht, hnodes, hgap₂, htables, hgap₄⟩ := n.takes_nodes hnext y
  have hassoc (r : List UInt8) : n.nodesBytes ++ (n.tables.flatMap TableLine.bytes ++
      (chars "\n\n" ++ r)) = t₁ ++ (t₂ ++ (t₃ ++ (t₄ ++ r))) := by
    simpa only [List.append_assoc] using (congrArg (· ++ r) ht).symm
  have hsame : Same x y₃ := by
    have h₁ := Same.of_takes hsymbols rfl
    have h₂ := Same.of_takes hnodes rfl
    have h₃ := Same.of_takes htables rfl
    exact ⟨h₃.1.trans (h₂.1.trans h₁.1), h₃.2.trans (h₂.2.trans h₁.2)⟩
  obtain ⟨x₁, hmessages, hx₁, -⟩ := takes_messages n.messages hs (hsame.2.trans hx)
  refine ⟨x₁, by rw [hx₁, hsame.1], fun o x₂ hsections => ?_⟩
  have hbytes : n.bytes = [] ++ ([] ++ (n.versionBytes ++ (chars "\n\n" ++ ([] ++ (n.symbolsBytes ++
      (timingBytes ++ ([] ++ (t₁ ++ (t₂ ++ (t₃ ++ (t₄ ++ (n.messages.flatMap MessageLines.bytes ++
        [])))))))))))) := by
    rw [bytes, hassoc]
    simp only [List.nil_append, List.append_nil]
  rw [hbytes]
  have hlast : ∃ u, Parses candbgrammar (seqs [Rule.sections]) ([] ++ s) x₁ (o.prepend [] u)
      x₂ := by
    refine ⟨[], ?_⟩
    cases o <;> exact hsections
  refine Takes.seqs_prepend (takes_spacing ?_) (Takes.seqs_prepend (takes_no_gap ?_)
    (Takes.seqs_prepend n.takes_version (Takes.seqs_prepend (takes_gap (allIn_of_all rfl) ?_)
    (Takes.seqs_prepend (.star_nil fun _ => comment_failure ?_)
    (Takes.seqs_prepend (?_ : Takes _ _ _ _ x y)
    (Takes.seqs_prepend takes_bs (Takes.seqs_prepend (takes_no_gap ?_)
    (Takes.seqs_prepend (?_ : Takes _ _ t₁ _ y y₂) (Takes.seqs_prepend (?_ : Takes _ _ t₂ _ y₂ y₂)
    (Takes.seqs_prepend (?_ : Takes _ _ t₃ _ y₂ y₃) (Takes.seqs_prepend (?_ : Takes _ _ t₄ _ y₃ y₃)
    (Takes.seqs_prepend (?_ : Takes _ _ _ _ y₃ x₁) hlast))))))))))))
  all_goals simp only [List.append_assoc, List.nil_append, List.append_nil, ← hassoc]
  · rw [versionBytes, List.append_assoc, List.append_assoc]
    exact stops_chars rfl
  · rw [versionBytes, List.append_assoc, List.append_assoc]
    exact stops_chars rfl
  · rw [symbolsBytes, List.append_assoc, List.append_assoc]
    exact stops_chars rfl
  · rw [symbolsBytes, List.append_assoc, List.append_assoc]
    exact stops_chars rfl
  · exact hsymbols
  · rw [nodesBytes, List.append_assoc, List.append_assoc]
    exact stops_chars rfl
  · exact hnodes
  · exact hgap₂
  · exact htables
  · exact hgap₄
  · exact hmessages

/-- A file with a message that has a signal in degrees. -/
def degrees : File where
  version := ⟨[], .nil, nofun⟩
  symbols := []
  nodes := []
  tables := []
  messages := [{
    id := ⟨chars "100", isDigits_of_all rfl, by decide⟩
    name := ⟨chars "Engine", by decide, allIn_of_all rfl⟩
    dlc := ⟨chars "8", isDigits_of_all rfl, by decide⟩
    transmitter := ⟨chars "ECU", by decide, allIn_of_all rfl⟩
    signals := [{
      name := ⟨chars "Coolant", by decide, allIn_of_all rfl⟩
      mux := .none
      startBit := ⟨chars "8", isDigits_of_all rfl, by decide⟩
      size := ⟨chars "8", isDigits_of_all rfl, by decide⟩
      byteOrder := ⟨chars "1", isDigits_of_all rfl, by decide⟩
      sign := .plus
      factor := Natural.number ⟨chars "1", isDigits_of_all rfl, by decide⟩
      offset := { Natural.number ⟨chars "40", isDigits_of_all rfl, by decide⟩ with
        sign := some .minus }
      min := Natural.number ⟨chars "0", isDigits_of_all rfl, by decide⟩
      max := Natural.number ⟨chars "215", isDigits_of_all rfl, by decide⟩
      unit := ⟨[0xC2, 0xB0, 0x43],
        .char (by decide) (by decide) (.char (by decide) (by decide) .nil), by decide⟩
      receiver := ⟨chars "EW", by decide, allIn_of_all rfl⟩
      receivers := [] }] }]

end File

end EW8.Dbc
