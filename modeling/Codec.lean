import Codec.Io.Stream
import Codec.Io.Copy
import Codec.Util
import Codec.Bytes
import Codec.Binary
import Codec.Fixed
import Codec.Typed.Writer
import Codec.Typed.Reader
import Codec.Typed.Latch
import Codec.Peekable
import Codec.Chained
import Codec.Bufio.Writer
import Codec.Bufio.Reader
import Codec.Setup
import Codec.List
import Codec.ForwardSeek
import Codec.Field
import Codec.Strings
import Codec.Typed.RoundTrip
import Codec.BytesBuffer
import Codec.Limited
import Codec.Generic
import Codec.Bufio.Source
import Codec.Bufio.Seek
import Codec.Typed.Position
import Codec.SliceWriter
import Codec.Typed.Truncation
import Codec.Typed.Overflow
