import TableParser.Proofs.Script.FirstError
import TableParser.Proofs.Script.Phrase
import TableParser.Proofs.Token.Coverage
import TableParser.Proofs.Tree.Moved
/-!
Documents one after the other.

Between two documents a new line is enough. It ends a comment and every token that is not hidden, so
what is read before it is what is read of the first document alone, and the blanks around it are one
hidden token:

    first    a = { b }  # c          Statement 1:1
    second   d                       Statement 1:1
             e = 1                   Statement 2:1
    joined   a = { b }  # c          Statement 1:1
             d                       Statement 2:1
             e = 1                   Statement 3:1

A statement is over when the first document is, and the next token starts another one: only an
operator would go on with the last scalar, and no document starts with an operator. So the
statements of the two documents are a document, and as the rules for lists leave no nodes, its root
has the children of the first root and then those of the second.

Main statement: `documents_concatenate`.
-/

open Computability

namespace TableParser.Script

variable {kind : SymbolId} {input lexeme rest u : List Char} {p : Position}
  {source source' : String}

/-! ### What a scan shows -/

/-- The tokens that are not hidden, from a place of a source on. -/
def shownAt (source : String) (text : List Char) (p : Position) : List Token :=
  (TokenStream.ofScanner tables ⟨source, text, p⟩).shown tables false

theorem shownAt_nil (source : String) (p : Position) : shownAt source [] p = [] := by
  rw [shownAt, TokenStream.ofScanner_last rfl]
  rfl

/-- The first cut, unless it is hidden, and then what the rest shows. -/
theorem shownAt_cut (hne : input ≠ []) (hcut : Cut.first tables input = ⟨kind, lexeme, rest⟩)
    (source : String) (p : Position) :
    shownAt source input p =
      (if tables.isHidden kind then [] else [⟨kind, String.ofList lexeme, p⟩]) ++
        shownAt source rest (p.after (String.ofList lexeme)) := by
  rw [shownAt, TokenStream.shown, ahead_ofScanner source hne p hcut]
  cases hhidden : tables.isHidden kind with
  | true => rw [List.filter_cons_of_neg (by simp [hhidden])]; rfl
  | false => rw [List.filter_cons_of_pos (by simp [hhidden])]; rfl

/-- The blanks at the front of a text, and what is left. -/
theorem exists_blanks (text : List Char) :
    ∃ front later, text = front ++ later ∧ (∀ c ∈ front, IsBlank c) ∧ StartsPlain later := by
  induction text with
  | nil => exact ⟨[], [], rfl, List.forall_mem_nil _, by rintro _ ⟨⟩⟩
  | cons c cs ih =>
    by_cases hc : IsBlank c
    · obtain ⟨front, later, rfl, hfront, hlater⟩ := ih
      exact ⟨c :: front, later, rfl, List.forall_mem_cons.2 ⟨hc, hfront⟩, hlater⟩
    · refine ⟨[], c :: cs, rfl, List.forall_mem_nil _, ?_⟩
      rintro _ ⟨⟩
      exact hc

theorem shownAt_blanks_of_startsPlain (hu : ∀ c ∈ u, IsBlank c) (hrest : StartsPlain rest)
    (source : String) (p : Position) :
    shownAt source (u ++ rest) p = shownAt source rest (p.after (String.ofList u)) := by
  by_cases hne : u = []
  · rw [hne]
    rfl
  · have hcut := first_blanks (mem_plus_single.2 ⟨hne, hu⟩) hrest
    rw [shownAt_cut (List.append_ne_nil_of_left_ne_nil hne rest) hcut]
    rfl

/-- Blanks show nothing, whatever comes after them. -/
theorem shownAt_blanks (hu : ∀ c ∈ u, IsBlank c) (rest : List Char) (source : String)
    (p : Position) :
    shownAt source (u ++ rest) p = shownAt source rest (p.after (String.ofList u)) := by
  -- the blanks that the rest starts with belong to the same token
  obtain ⟨front, later, rfl, hfront, hlater⟩ := exists_blanks rest
  have hall : ∀ c ∈ u ++ front, IsBlank c :=
    fun c hc => (List.mem_append.1 hc).elim (hu c) (hfront c)
  rw [← List.append_assoc, shownAt_blanks_of_startsPlain hall hlater,
    shownAt_blanks_of_startsPlain hfront hlater, String.ofList_append, Position.after_append]

theorem blank_of_spelling (h : u ∈ spelling whitespace) : ∀ c ∈ u, IsBlank c := by
  rcases spelling_cases h with ⟨hstring, -⟩ | ⟨s, -, hs, -, hstate⟩
  · cases hstring
  · have hone : ∀ n < 17, kindOf n = whitespace → n = 1 := by decide
    rw [hone _ (number_lt hstate) hs] at hstate
    exact (mem_plus_single.1 hstate).2

/-- A cut stays when a new line and more are added, if it is no error. Only blanks at the end would
go on. -/
theorem blank_or_first_append (hne : input ≠ [])
    (hcut : Cut.first tables input = ⟨kind, lexeme, rest⟩) (hkind : kind ≠ error) {more : List Char}
    (hmore : more.head? = some '\n') :
    (∀ c ∈ input, IsBlank c) ∨ Cut.first tables (input ++ more) = ⟨kind, lexeme, rest ++ more⟩ := by
  by_cases hrest : rest = []
  · by_cases hblank : kind = whitespace
    · left
      subst hrest hblank
      have hall : lexeme ++ [] = input := by
        rw [← Cut.lexeme_append_rest tables input, hcut]
      rcases lexeme_of_first hne hcut with hspelling | ⟨herror, -⟩
      · rw [← hall, List.append_nil]
        exact blank_of_spelling hspelling
      · exact absurd herror hkind
    · exact .inr (first_append hcut hne hkind more (.inr ⟨hblank, hmore⟩))
  · exact .inr (first_append hcut hne hkind more (.inl hrest))

/-- What is shown before a new line does not depend on what comes after it, if no error is among the
tokens. -/
theorem shownAt_append {ahead : List Token} {more : List Char} (hmore : more.head? = some '\n')
    (hahead : (TokenStream.ofScanner tables ⟨source, rest, p⟩).ahead = ahead)
    (hok : ∀ tok ∈ ahead, tok.symbol ≠ error) :
    shownAt source' (rest ++ more) p = shownAt source rest p ++
      shownAt source' more (p.after (String.ofList rest)) := by
  induction ahead generalizing rest p with
  | nil =>
    have hnil : rest = [] := by
      by_contra hne
      rcases hcut : Cut.first tables rest with ⟨kind, lexeme, later⟩
      rw [ahead_ofScanner source hne p hcut] at hahead
      cases hahead
    rw [hnil, shownAt_nil]
    rfl
  | cons first ahead ih =>
    have hne : rest ≠ [] := by
      rintro rfl
      rw [TokenStream.ofScanner_last rfl] at hahead
      cases hahead
    rcases hcut : Cut.first tables rest with ⟨kind, lexeme, later⟩
    rw [ahead_ofScanner source hne p hcut] at hahead
    obtain ⟨rfl, hlater⟩ := List.cons.inj hahead
    rw [List.forall_mem_cons] at hok
    rcases blank_or_first_append hne hcut hok.1 hmore with hblank | hlonger
    · have hnone := shownAt_blanks hblank [] source p
      rw [List.append_nil, shownAt_nil] at hnone
      rw [shownAt_blanks hblank, hnone]
      rfl
    · have hall : lexeme ++ later = rest := by
        rw [← Cut.lexeme_append_rest tables rest, hcut]
      rw [shownAt_cut (List.append_ne_nil_of_left_ne_nil hne more) hlonger, shownAt_cut hne hcut,
        ih hlater hok.2, ← hall, String.ofList_append, Position.after_append, List.append_assoc]

/-- What a text shows from a moved place is what it shows, moved. -/
theorem shownAt_move (lines bytes : Nat) (source source' : String) (text : List Char)
    (p : Position) :
    shownAt source' text (p.move lines bytes) =
      (shownAt source text p).map (Token.move lines bytes) := by
  have hmoved : (TokenStream.ofScanner tables ⟨source', text, p.move lines bytes⟩).ahead = _ :=
    TokenStream.ahead_move lines bytes source' ⟨source, text, p⟩
  rw [shownAt, TokenStream.shown, hmoved, List.filter_map]
  rfl

/-! ### Two sources -/

/-- A source that is read without an error has no error among its tokens. -/
theorem ne_error_of_readsClean {strategy : Strategy} {showHidden : Bool}
    (h : ReadsClean strategy showHidden source) :
    ∀ tok ∈ (TokenStream.ofSource tables source).ahead, tok.symbol ≠ error := by
  intro tok htok herror
  have hshown : tables.isHidden tok.symbol = false := by
    rw [herror]
    rfl
  have hword : tok.symbol ∈ (TokenStream.ofSource tables source).word tables :=
    List.mem_map_of_mem (List.mem_filter.2 ⟨htok, by simp [hshown]⟩)
  exact (plain_of_sentence (sentence_of_readsClean h) hword).2.2 herror

/-- The place after a source and a new line is the start, moved. -/
theorem after_line (first : String) : (Position.start.after first).after "\n" =
    Position.start.move (first.toList.count '\n' + 1) (first.utf8ByteSize + 1) := by
  have hsize : ('\n' : Char).utf8Size = 1 := by decide
  have hline : (Position.start.after first).after "\n" = (Position.start.after first).step '\n' :=
    rfl
  rw [hline, Position.after_start]
  simp [Position.counted, Position.step, Position.move, Position.start, hsize, Nat.add_comm]

/-- The tokens of two sources with a new line between them are those of the first and those of the
second, which stand as many lines and bytes later as the first one has. -/
theorem visible_append {first : String} (second : String)
    (hok : ∀ tok ∈ (TokenStream.ofSource tables first).ahead, tok.symbol ≠ error) :
    visible (first ++ "\n" ++ second) = visible first ++
      (visible second).map (Token.move (first.toList.count '\n' + 1) (first.utf8ByteSize + 1)) := by
  have hchars : (first ++ "\n" ++ second).toList = first.toList ++ (['\n'] ++ second.toList) := by
    simp
  have hline : ∀ c ∈ ['\n'], IsBlank c := by simp [IsBlank]
  calc visible (first ++ "\n" ++ second)
      = shownAt (first ++ "\n" ++ second) (first.toList ++ (['\n'] ++ second.toList)) .start := by
        rw [← hchars]
        rfl
    _ = shownAt first first.toList .start ++
          shownAt (first ++ "\n" ++ second) (['\n'] ++ second.toList)
            (Position.start.after first) := by
        rw [shownAt_append rfl rfl hok, String.ofList_toList]
    _ = shownAt first first.toList .start ++ shownAt (first ++ "\n" ++ second) second.toList
          (Position.start.move (first.toList.count '\n' + 1) (first.utf8ByteSize + 1)) := by
        rw [shownAt_blanks hline, ← after_line]
    _ = visible first ++ (visible second).map
          (Token.move (first.toList.count '\n' + 1) (first.utf8ByteSize + 1)) := by
        rw [shownAt_move _ _ second]
        rfl

/-! ### Documents -/

namespace Document

/-- The same statements over other tokens. -/
def map (f : Token → Token) : Document → Document
  | nil => nil
  | plain v rest => plain (f v) (rest.map f)
  | setting k o v rest => setting (f k) (f o) (f v) (rest.map f)
  | group k o l body r rest => group (f k) (f o) (f l) (body.map f) (f r) (rest.map f)
  | braces l body r rest => braces (f l) (body.map f) (f r) (rest.map f)

theorem tokens_map (f : Token → Token) (doc : Document) :
    (doc.map f).tokens = doc.tokens.map f := by
  induction doc with
  | nil => rfl
  | plain | setting => simp only [map, tokens, List.map_cons, *]
  | group | braces => simp only [map, tokens, List.map_cons, List.map_append, *]

theorem Proper.map {f : Token → Token} (hf : ∀ tok, (f tok).symbol = tok.symbol) {doc : Document}
    (h : doc.Proper) :
    (doc.map f).Proper := by
  induction doc with
  | nil => exact trivial
  | plain | setting | group | braces => simp_all [Proper, Document.map]

end Document

section Moved

variable (lines bytes : Nat)

theorem leaf_move (tok : Token) : leaf (tok.move lines bytes) = (leaf tok).move lines bytes := by
  rw [leaf, leaf, Node.move_mk]
  rfl

theorem statementNode_move {parts : List Node} (hne : parts ≠ []) :
    (statementNode parts).move lines bytes = statementNode (parts.map (Node.move lines bytes)) :=
  Node.move_branch lines bytes hne ..

theorem blockNode_move (opening closing : Token) (body : List Node) :
    (blockNode opening body closing).move lines bytes =
      blockNode (opening.move lines bytes) (body.map (Node.move lines bytes))
        (closing.move lines bytes) := by
  rw [blockNode, Node.move_branch lines bytes (by simp), List.map_append, List.map_cons,
    List.map_singleton, blockNode, leaf_move, leaf_move]

/-- The nodes of statements move with the tokens. -/
theorem Document.nodes_move (doc : Document) :
    (doc.map (Token.move lines bytes)).nodes = doc.nodes.map (Node.move lines bytes) := by
  induction doc with
  | nil => rfl
  | plain | setting | group | braces =>
    simp [map, nodes, statementNode_move, blockNode_move, leaf_move, *]

end Moved

/-- The statements below the root of a tree; without a tree there are none. -/
def entries (tree : Option Node) : List Node := tree.elim [] Node.children

theorem entries_of_document (q : Position) (ns : List Node) :
    entries (if ns.isEmpty then none else some (.branch "Config" config false none q ns)) = ns := by
  cases ns with
  | nil => rfl
  | cons n ns => simp [entries]

/-- Two documents that are read without an error, with a new line between them, are read without an
error, and the statements of their tree are those of the first and then those of the second. Every
node of the second stands as many lines later as the first document has new lines, and one more, and
as many bytes later as the first document has, and one more; its column and its length are the
same. -/
theorem documents_concatenate {strategy : Strategy} {first second : String}
    (hfirst : ReadsClean strategy false first) (hsecond : ReadsClean strategy false second) :
    ReadsClean strategy false (first ++ "\n" ++ second) ∧
      ∃ tree₁ tree₂ tree, parse tables strategy {} first = .ok tree₁ ∧
        parse tables strategy {} second = .ok tree₂ ∧
        parse tables strategy {} (first ++ "\n" ++ second) = .ok tree ∧
        entries tree = entries tree₁ ++ (entries tree₂).map
          (Node.move (first.toList.count '\n' + 1) (first.utf8ByteSize + 1)) := by
  obtain ⟨doc₁, q₁, hdoc₁, htokens₁, hparse₁⟩ := exists_document hfirst
  obtain ⟨doc₂, q₂, hdoc₂, htokens₂, hparse₂⟩ := exists_document hsecond
  have hvisible := visible_append second (ne_error_of_readsClean hfirst)
  generalize first.toList.count '\n' + 1 = lines at hvisible ⊢
  generalize first.utf8ByteSize + 1 = bytes at hvisible ⊢
  have hdoc := hdoc₁.append (hdoc₂.map (f := Token.move lines bytes) fun _ => rfl)
  have htokens : (doc₁.append (doc₂.map (Token.move lines bytes))).tokens =
      visible (first ++ "\n" ++ second) := by
    rw [Document.tokens_append, Document.tokens_map, htokens₁, htokens₂, hvisible]
  obtain ⟨q, hparse⟩ := parse_of_document hdoc htokens strategy
  refine ⟨readsClean_of_document hdoc htokens strategy false, _, _, _, hparse₁, hparse₂, hparse, ?_⟩
  rw [entries_of_document, entries_of_document, entries_of_document, Document.nodes_append,
    Document.nodes_move]

/-- A document that ends in a comment. -/
def commented : String := "a # c"

/-- A document that starts with a blank. -/
def indented : String := " b\nd"

theorem visible_commented :
    visible commented = (Document.plain ⟨symbol, "a", .start⟩ .nil).tokens := by
  rw [visible, TokenStream.ofSource]
  iterate 3 rw [TokenStream.ofScanner_more (by decide)]
  rw [TokenStream.ofScanner_last (by decide)]
  rfl

theorem visible_indented : visible indented =
    (Document.plain ⟨symbol, "b", ⟨1, 2, 1⟩⟩ (.plain ⟨symbol, "d", ⟨2, 1, 3⟩⟩ .nil)).tokens := by
  rw [visible, TokenStream.ofSource]
  iterate 4 rw [TokenStream.ofScanner_more (by decide)]
  rw [TokenStream.ofScanner_last (by decide)]
  rfl

theorem documents_concatenate_commented : ReadsClean .predictive false commented ∧
    ReadsClean .predictive false indented ∧
      ∃ tree, parse tables .predictive {} (commented ++ "\n" ++ indented) = .ok tree ∧
        (entries tree).map (fun n => n.label.position) = [⟨1, 1, 0⟩, ⟨2, 2, 7⟩, ⟨3, 1, 9⟩] := by
  have hcommented : (Document.plain ⟨symbol, "a", .start⟩ .nil).Proper := by
    simp [Document.Proper, scalars]
  have hindented :
      (Document.plain ⟨symbol, "b", ⟨1, 2, 1⟩⟩ (.plain ⟨symbol, "d", ⟨2, 1, 3⟩⟩ .nil)).Proper := by
    simp [Document.Proper, scalars]
  have hfirst := readsClean_of_document hcommented visible_commented.symm .predictive false
  have hsecond := readsClean_of_document hindented visible_indented.symm .predictive false
  obtain ⟨q₁, hparse₁⟩ := parse_of_document hcommented visible_commented.symm .predictive
  obtain ⟨q₂, hparse₂⟩ := parse_of_document hindented visible_indented.symm .predictive
  obtain ⟨-, tree₁, tree₂, tree, htree₁, htree₂, htree, hentries⟩ :=
    documents_concatenate hfirst hsecond
  obtain rfl := Except.ok.inj (hparse₁.symm.trans htree₁)
  obtain rfl := Except.ok.inj (hparse₂.symm.trans htree₂)
  refine ⟨hfirst, hsecond, tree, htree, ?_⟩
  rw [hentries, entries_of_document, entries_of_document]
  rfl

end TableParser.Script
