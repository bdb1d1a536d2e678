import TableParser.Token.Scanner
/-!
The tokens of an input as a stream with one token of lookahead.

A stream holds the tokens still to come and the token that ends it: the first one with the
end-of-stream symbol. The current token is the first of those to come, or the last one for good once
the others are used up. Recovery from a syntax error drops the current token and then every token
that is hidden or not wanted.
-/

namespace TableParser

/-- The tokens still to come, and the end-of-stream token after them. -/
structure TokenStream where
  ahead : List Token
  last : Token
  deriving DecidableEq, Repr, Inhabited

namespace TokenStream

/-- Scans to the end; `done` holds the tokens so far, last one first. -/
def collect (t : Tables) (done : List Token) (s : Scanner) : TokenStream :=
  let r := s.next t
  if r.1.symbol = t.endOfStream then ⟨done.reverse, r.1⟩
  else collect t (r.1 :: done) r.2
termination_by s.rest.length
decreasing_by exact Scanner.next_rest_lt t (Scanner.rest_ne_nil_of_next t (by assumption))

/-- The tokens that a scan in progress still gives. -/
def ofScanner (t : Tables) (s : Scanner) : TokenStream :=
  collect t [] s

/-- The tokens of an input. -/
def ofSource (t : Tables) (source : String) : TokenStream :=
  ofScanner t (.ofSource source)

/-- The tokens of the stream, the last one included. -/
def tokens (s : TokenStream) : List Token :=
  s.ahead ++ [s.last]

/-- The token at hand. -/
def current (s : TokenStream) : Token :=
  s.ahead.headD s.last

/-- Whether only the end is left. -/
def atEnd (s : TokenStream) : Bool := s.ahead.isEmpty

/-- Passes the token at hand; the end cannot be passed. -/
def advance (s : TokenStream) : TokenStream :=
  { s with ahead := s.ahead.tail }

/-- Passes hidden tokens at the front. -/
def dropHidden (t : Tables) (s : TokenStream) : TokenStream :=
  { s with ahead := s.ahead.dropWhile fun tok => t.isHidden tok.symbol }

/-- Whether recovery passes over a token. -/
def isSkipped (t : Tables) (sync : SymbolId → Bool) (tok : Token) : Bool :=
  t.isHidden tok.symbol || !sync tok.symbol

/-- Passes the token at hand and the tokens after it up to one that is not hidden and that `sync`
accepts. At the end nothing is passed. Gives the passed tokens and the rest. -/
def recover (t : Tables) (sync : SymbolId → Bool) (s : TokenStream) : List Token × TokenStream :=
  match s.ahead with
  | [] => ([], s)
  | first :: later =>
    (first :: later.takeWhile (isSkipped t sync),
      { s with ahead := later.dropWhile (isSkipped t sync) })

end TokenStream

/-- The tokens of an input, up to and with the end-of-stream token. -/
def tokenize (t : Tables) (source : String) : List Token :=
  (TokenStream.ofSource t source).tokens

end TableParser
