import Viracochan.Text
import Viracochan.Time
import Viracochan.Time.Parse
import Viracochan.Digest
import Viracochan.Config
import Viracochan.Signer
import Viracochan.Json.Lexer
import Viracochan.Json.Value
import Viracochan.Json.Strings
import Viracochan.Json.Format
import Viracochan.Json.Decode
import Viracochan.Codec
import Viracochan.Checksum
import Viracochan.Storage
import Viracochan.CachedStorage
import Viracochan.Migrate
import Viracochan.IntegrityStorage
import Viracochan.FileStorage
import Viracochan.Journal.Entry
import Viracochan.Journal.Resequence
import Viracochan.Journal.Log
import Viracochan.Journal.Chain
import Viracochan.Manager
import Viracochan.Manager.Run
import Viracochan.Manager.Watch
