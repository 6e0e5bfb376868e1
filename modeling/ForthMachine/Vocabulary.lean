/-!
# The built-in words

The words every machine starts with, in four kinds: primitives, which also have a meaning inside
definitions; words that read ahead in the line; comments; and the words that give a definition its
structure. Each has a name and a description, its stack effect first. The lists give the order of
installation.
-/

set_option autoImplicit false

namespace ForthMachine

/-- Words that run when interpreted and become calls when compiled. -/
inductive Primitive where
  | add | sub | mul | div | mod | divMod | invert | bitAnd | bitOr
  | greater | greaterEqual | less | lessEqual | equal | equals | unequal | isZero | isNegative
  | pushTrue | pushFalse
  | swap | dup | copySecond | rot | drop | tuck | dup2 | swap2 | copySecondPair
  | depth | clear | clearAll
  | toReturn | fromReturn | copyReturn | index | outerIndex
  | print | printStack | emit | newline | page | words
  | quit | bye | setLevel
  deriving DecidableEq, Repr

/-- Words that take a name from the line, and run only outside definitions. -/
inductive ReadAhead where
  | colon | see
  deriving DecidableEq, Repr

/-- Words that skip text, in and outside definitions. -/
inductive Comment where
  | paren | backslash
  deriving DecidableEq, Repr

/-- Words that shape the definition being compiled. -/
inductive Structural where
  | semicolon | ifWord | elseWord | thenWord | doWord | loopWord | plusLoop
  | beginWord | untilWord | whileWord | repeatWord | leaveWord
  deriving DecidableEq, Repr

namespace Primitive

def name : Primitive → String
  | add => "+"
  | sub => "-"
  | mul => "*"
  | div => "/"
  | mod => "MOD"
  | divMod => "/MOD"
  | invert => "INVERT"
  | bitAnd => "AND"
  | bitOr => "OR"
  | greater => ">"
  | greaterEqual => ">="
  | less => "<"
  | lessEqual => "<="
  | equal => "=="
  | equals => "="
  | unequal => "!="
  | isZero => "0="
  | isNegative => "0<"
  | pushTrue => "TRUE"
  | pushFalse => "FALSE"
  | swap => "SWAP"
  | dup => "DUP"
  | copySecond => "OVER"
  | rot => "ROT"
  | drop => "DROP"
  | tuck => "TUCK"
  | dup2 => "2DUP"
  | swap2 => "2SWAP"
  | copySecondPair => "2OVER"
  | depth => "DEPTH"
  | clear => "CLEAR"
  | clearAll => "0SP"
  | toReturn => ">R"
  | fromReturn => "R>"
  | copyReturn => "R@"
  | index => "I"
  | outerIndex => "J"
  | print => "."
  | printStack => ".S"
  | emit => "EMIT"
  | newline => "CR"
  | page => "PAGE"
  | words => "WORDS"
  | quit => "QUIT"
  | bye => "BYE"
  | setLevel => "DBG"

def usage : Primitive → String
  | add => "( j k -- j+k ) Push j+k on the stack"
  | sub => "( j k -- j-k ) Push j-k on the stack"
  | mul => "( j k -- j*k ) Push j*k on the stack"
  | div => "( j k -- j/k ) Push the floored quotient"
  | mod => "( j k -- r ) Push the floored remainder"
  | divMod => "( j k -- r q ) Push remainder, then quotient"
  | invert => "( n -- ~n ) Bitwise complement"
  | bitAnd => "( a b -- a&b ) Bitwise and"
  | bitOr => "( a b -- a|b ) Bitwise or"
  | greater => "( j k -- b ) If j > k push true else false"
  | greaterEqual => "( j k -- b ) If j >= k push true else false"
  | less => "( j k -- b ) If j < k push true else false"
  | lessEqual => "( j k -- b ) If j <= k push true else false"
  | equal => "( j k -- b ) If j == k push true else false"
  | equals => "( j k -- b ) If j == k push true else false"
  | unequal => "( j k -- b ) If j != k push true else false"
  | isZero => "( j -- b ) If j == 0 push true else false"
  | isNegative => "( j -- b ) If j < 0 push true else false"
  | pushTrue => "( -- -1 ) Push the canonical true value"
  | pushFalse => "( -- 0 ) Push the canonical false value"
  | swap => "( m n -- n m ) Reverse the top two items"
  | dup => "( n -- n n ) Push a second copy of the top item"
  | copySecond => "( m n -- m n m ) Copy the second item to the top"
  | rot => "( i j k -- j k i ) Move the third item to the top"
  | drop => "( n -- ) Discard the top item"
  | tuck => "( m n -- n m n ) Copy the top item below the second"
  | dup2 => "( a b -- a b a b ) Copy the top pair"
  | swap2 => "( a b c d -- c d a b ) Swap the top two pairs"
  | copySecondPair => "( a b c d -- a b c d a b ) Copy the second pair"
  | depth => "( -- n ) Push the number of items on the stack"
  | clear => "( .. -- ) Empty the stack"
  | clearAll => "( .. -- ) Empty the stack"
  | toReturn => "( n -- ) Pop stack and push value to return stack"
  | fromReturn => "( -- n ) Pop return stack and push value to the stack"
  | copyReturn => "( -- n ) Copy the top of the return stack"
  | index => "( -- n ) Push the innermost loop index"
  | outerIndex => "( -- n ) Push the next outer loop index"
  | print => "( n -- ) Pop and print the top of the stack"
  | printStack => "( -- ) Print the whole stack, leaving it unchanged"
  | emit => "( c -- ) Print the character with code point c"
  | newline => "( -- ) Print a newline"
  | page => "( -- ) Scroll the screen clear"
  | words => "( -- ) List every defined word"
  | quit => "( -- ) Abandon the rest of the line, keeping the stacks"
  | bye => "( -- ) Exit to the operating system"
  | setLevel => "( n -- ) Set the message level: 0 error .. 3 debug"

def all : List Primitive :=
  [add, sub, mul, div, mod, divMod, invert, bitAnd, bitOr,
   greater, greaterEqual, less, lessEqual, equal, equals, unequal, isZero, isNegative,
   pushTrue, pushFalse,
   swap, dup, copySecond, rot, drop, tuck, dup2, swap2, copySecondPair,
   depth, clear, clearAll,
   toReturn, fromReturn, copyReturn, index, outerIndex,
   print, printStack, emit, newline, page, words,
   quit, bye, setLevel]

end Primitive

namespace ReadAhead

def name : ReadAhead → String
  | colon => ":"
  | see => "SEE"

def usage : ReadAhead → String
  | colon => "<name> ( -- ) Start a new definition"
  | see => "<name> ( -- ) Decompile a word"

def all : List ReadAhead := [colon, see]

end ReadAhead

namespace Comment

def name : Comment → String
  | paren => "("
  | backslash => "\\"

def usage : Comment → String
  | paren => "( -- ) Comment, up to the closing )"
  | backslash => "( -- ) Comment, to the end of the line"

def all : List Comment := [paren, backslash]

end Comment

namespace Structural

def name : Structural → String
  | semicolon => ";"
  | ifWord => "IF"
  | elseWord => "ELSE"
  | thenWord => "THEN"
  | doWord => "DO"
  | loopWord => "LOOP"
  | plusLoop => "+LOOP"
  | beginWord => "BEGIN"
  | untilWord => "UNTIL"
  | whileWord => "WHILE"
  | repeatWord => "REPEAT"
  | leaveWord => "LEAVE"

def usage : Structural → String
  | semicolon => "( -- ) End a definition"
  | ifWord => "( b -- ) Run the following code if b is non-zero"
  | elseWord => "( -- ) Start the false branch of an IF"
  | thenWord => "( -- ) Close an IF"
  | doWord => "( limit start -- ) Start a counted loop"
  | loopWord => "( -- ) Close a counted loop, stepping by 1"
  | plusLoop => "( n -- ) Close a counted loop, stepping by n"
  | beginWord => "( -- ) Start an indefinite loop"
  | untilWord => "( b -- ) Repeat from BEGIN until b is non-zero"
  | whileWord => "( b -- ) Leave a BEGIN loop when b is zero"
  | repeatWord => "( -- ) Go back to BEGIN"
  | leaveWord => "( -- ) Exit the innermost loop"

def all : List Structural :=
  [semicolon, ifWord, elseWord, thenWord, doWord, loopWord, plusLoop,
   beginWord, untilWord, whileWord, repeatWord, leaveWord]

end Structural

end ForthMachine
